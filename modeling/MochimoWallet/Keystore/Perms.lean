import MochimoWallet.Basic
import MochimoWallet.Lib.Result
import MochimoWallet.Lib.Text
import Mathlib.Data.Nat.Bitwise

/-!
# Access lists (Windows)

The keystore refuses a directory or a store file whose access list grants a right to anyone but this
user, `SYSTEM` and the Administrators group, or which anyone else owns. The check walks the list
without evaluating it: denials and entries for children are passed over, and a type of entry that it
does not read is refused. What the system makes of a list is `granted`, the first entry that decides
a right deciding it, and the check is sound for it whatever an entry's condition says
(`accepted_list_keeps_out`).
-/

namespace MochimoWallet.Keystore.Perms

open Codec

/-- Security identifiers, and the form they are printed in. -/
class Identifiers where
  Sid : Type
  sidString : Sid → Except ErrorKind Text

export Identifiers (Sid sidString)

/-! ## Names and rights -/

def system : Text := "S-1-5-18".toList
def administrators : Text := "S-1-5-32-544".toList
/-- Whoever owns the object. -/
def ownerRights : Text := "S-1-3-4".toList
def everyone : Text := "S-1-1-0".toList

abbrev fileReadData : UInt32 := 0x1
/-- Adding a file, on a directory. -/
abbrev fileWriteData : UInt32 := 0x2
/-- Adding a subdirectory, on a directory. -/
abbrev fileAppendData : UInt32 := 0x4
abbrev fileDeleteChild : UInt32 := 0x40
abbrev delete : UInt32 := 0x10000
abbrev readControl : UInt32 := 0x20000
abbrev writeDac : UInt32 := 0x40000
abbrev writeOwner : UInt32 := 0x80000
abbrev genericAll : UInt32 := 0x10000000
abbrev genericWrite : UInt32 := 0x40000000
abbrev genericRead : UInt32 := 0x80000000

/-- What nobody else may have on the directory. -/
def writeRights : UInt32 :=
  fileWriteData ||| fileAppendData ||| fileDeleteChild ||| delete ||| writeDac ||| writeOwner |||
    genericWrite ||| genericAll

/-- What nobody else may have on a store file. -/
def fileRights : UInt32 :=
  fileReadData ||| fileWriteData ||| fileAppendData ||| delete ||| writeDac ||| writeOwner |||
    genericRead ||| genericWrite ||| genericAll

abbrev inheritOnlyAce : UInt8 := 0x8
abbrev accessAllowedAceType : UInt8 := 0
abbrev accessDeniedAceType : UInt8 := 1
abbrev accessDeniedObjectAceType : UInt8 := 6
abbrev accessAllowedCallbackAceType : UInt8 := 9
abbrev accessDeniedCallbackAceType : UInt8 := 10
abbrev accessDeniedCallbackObjectAceType : UInt8 := 12

section
variable [Identifiers]

structure Ace where
  aceType : UInt8
  aceFlags : UInt8
  mask : UInt32
  sid : Sid

/-- The owner and the list of an object; either may be null. -/
structure Security where
  owner : Option Sid
  dacl : Option (List Ace)

namespace Ace

/-- The entry is for children, and does not apply to the object. -/
def inheritOnly (ace : Ace) : Bool := ace.aceFlags &&& inheritOnlyAce ≠ 0

def allows (ace : Ace) : Bool :=
  ace.aceType = accessAllowedAceType || ace.aceType = accessAllowedCallbackAceType

def denies (ace : Ace) : Bool :=
  [accessDeniedAceType, accessDeniedCallbackAceType, accessDeniedObjectAceType,
    accessDeniedCallbackObjectAceType].contains ace.aceType

end Ace

/-! ## The check -/

def accepted (sid user : Text) : Bool :=
  sid = user || sid = system || sid = administrators || sid = ownerRights

/-- The first entry that grants one of `rights` to anyone else. -/
def firstForeign (user : Text) (rights : UInt32) : List Ace → Except ErrorKind (Option (Text × UInt32))
  | [] => .ok none
  | ace :: aces =>
    if ace.inheritOnly then firstForeign user rights aces
    else if ace.allows then
      if ace.mask &&& rights = 0 then firstForeign user rights aces
      else do
        let trustee ← sidString ace.sid
        if ¬ accepted trustee user then .ok (some (trustee, ace.mask))
        else firstForeign user rights aces
    else if ace.denies then firstForeign user rights aces
    else .error .unsupported

def Security.foreignGrant (security : Security) (user : Text) (rights : UInt32) :
    Except ErrorKind (Option (Text × UInt32)) :=
  match security.dacl with
  | none => .ok (some (everyone, genericAll))
  | some aces => firstForeign user rights aces

def ownerString (owner : Option Sid) : Except ErrorKind Text :=
  match owner with
  | none => .error .invalidData
  | some sid => sidString sid

/-- The list, and then the owner; `whose` is what the refusals name. -/
def refuseForeign (whose : String) (rights : UInt32) (unsafeFor : Text → UInt32 → Error) (user : Text)
    (security : Security) : Except Error Unit :=
  match security.foreignGrant user rights with
  | .error kind => .error (.io ("read " ++ whose ++ "'s access list") kind)
  | .ok (some (trustee, rights)) => .error (unsafeFor trustee rights)
  | .ok none =>
    match ownerString security.owner with
    | .error kind => .error (.io ("read " ++ whose ++ "'s owner") kind)
    | .ok owner =>
      if ¬ accepted owner user then .error (unsafeFor owner (writeDac ||| readControl)) else .ok ()

/-- What the system answers about an object: who this process is, and the object's descriptor. -/
structure Answers where
  user : Except ErrorKind Text
  security : Except ErrorKind Security

def refuseUnsafeDir (stat : Except ErrorKind Bool) (answers : Answers) : Except Error Unit := do
  match stat with
  | .error kind => .error (.io "stat directory" kind)
  | .ok false => .error (.io "stat directory" .notADirectory)
  | .ok true =>
    match answers.user with
    | .error kind => .error (.io "read the process token" kind)
    | .ok user =>
      match answers.security with
      | .error kind => .error (.io "read the directory's access list" kind)
      | .ok security => refuseForeign "the directory" writeRights .unsafeAcl user security

def refuseUnsafeFile (name : String) (answers : Answers) : Except Error Unit :=
  match answers.user with
  | .error kind => .error (.io "read the process token" kind)
  | .ok user =>
    match answers.security with
    | .error kind => .error (.io "read a store file's access list" kind)
    | .ok security => refuseForeign "a store file" fileRights (.unsafeFileAcl name) user security

/-! ## What the system makes of a list -/

/-- Someone who asks for access, by the identities they hold. `OWNER RIGHTS` is nobody's: an entry
for it names the owner. -/
structure Principal where
  holds : Sid → Bool
  not_ownerRights : ∀ sid, holds sid = true → sidString sid ≠ .ok ownerRights

/-- Whether an entry's condition is met, and what an entry of a type not listed here decides. -/
structure Evaluation where
  condition : Ace → Principal → Bool
  other : Ace → Principal → ℕ → Option Bool

def Principal.owns (p : Principal) (security : Security) : Bool := security.owner.any p.holds

/-- The entry is for the principal. -/
def Principal.named (p : Principal) (security : Security) (ace : Ace) : Bool :=
  match sidString ace.sid with
  | .ok trustee => if trustee = ownerRights then p.owns security else p.holds ace.sid
  | .error _ => p.holds ace.sid

variable (ev : Evaluation)

/-- What an entry decides about the right that is bit `i` of a mask. -/
def Ace.decides (security : Security) (p : Principal) (i : ℕ) (ace : Ace) : Option Bool :=
  if ace.inheritOnly then none
  else if ace.allows || ace.denies then
    let plain := ace.aceType = accessAllowedAceType ∨ ace.aceType = accessDeniedAceType
    if ace.mask.toNat.testBit i ∧ p.named security ace ∧ (plain ∨ ev.condition ace p) then some ace.allows
    else none
  else ev.other ace p i

/-- The system grants the right: there is no list, or the first entry that decides allows it. -/
def granted (security : Security) (p : Principal) (i : ℕ) : Bool :=
  match security.dacl with
  | none => true
  | some aces => aces.findSome? (Ace.decides ev security p i) = some true

/-- The principal is neither this user nor `SYSTEM` nor an administrator. -/
def Principal.Foreign (p : Principal) (user : Text) : Prop :=
  ∀ sid, p.holds sid = true → ∀ text, sidString sid = .ok text →
    text ≠ user ∧ text ≠ system ∧ text ≠ administrators

/-- Some right of a mask is granted. -/
def GrantedAny (security : Security) (p : Principal) (rights : UInt32) : Prop :=
  ∃ i, rights.toNat.testBit i = true ∧ granted ev security p i = true

/-- Nobody but the accepted identities is granted any of `rights`, or owns the object. -/
def Security.KeepsOut (security : Security) (user : Text) (rights : UInt32) : Prop :=
  ∀ ev (p : Principal), p.Foreign user →
    ¬ GrantedAny ev security p rights ∧ p.owns security = false

/-! ## What passes -/

/-- Two masks share a right. -/
def Overlap (m n : UInt32) : Prop := ∃ i, m.toNat.testBit i = true ∧ n.toNat.testBit i = true

omit [Identifiers] in
theorem and_eq_zero_iff (m n : UInt32) : m &&& n = 0 ↔ ¬ Overlap m n := by
  rw [← UInt32.toNat_inj, UInt32.toNat_and]
  constructor
  · rintro h ⟨i, hm, hn⟩
    have hi : (m.toNat &&& n.toNat).testBit i = true := by rw [Nat.testBit_and, hm, hn]; rfl
    rw [h] at hi
    simp at hi
  · intro h
    refine Nat.eq_of_testBit_eq fun i => ?_
    rw [Nat.testBit_and]
    by_cases hm : m.toNat.testBit i = true
    · have hn : ¬ n.toNat.testBit i = true := fun hn => h ⟨i, hm, hn⟩
      simp [hn]
    · simp [hm]

/-- The entry's trustee prints as a name the check accepts. -/
def Ace.ForAccepted (user : Text) (ace : Ace) : Prop :=
  ∃ trustee, sidString ace.sid = .ok trustee ∧ accepted trustee user = true

/-- The entry applies, and grants one of `rights` to another trustee. -/
def Ace.GrantsForeign (user : Text) (rights : UInt32) (ace : Ace) : Prop :=
  ace.inheritOnly = false ∧ ace.allows = true ∧ Overlap ace.mask rights ∧ ¬ ace.ForAccepted user

/-- The entry is for children, or of a type that the check reads and not a grant to anyone else. -/
def Ace.Passed (user : Text) (rights : UInt32) (ace : Ace) : Prop :=
  ace.inheritOnly = true ∨
    (ace.allows = true ∨ ace.denies = true) ∧ ¬ ace.GrantsForeign user rights

/-- The walk reports nothing on the lists whose every entry passes. -/
theorem firstForeign_eq_none {user : Text} {rights : UInt32} (aces : List Ace) :
    firstForeign user rights aces = .ok none ↔ ∀ ace ∈ aces, ace.Passed user rights := by
  induction aces with
  | nil => simp [firstForeign]
  | cons ace aces ih =>
    rw [List.forall_mem_cons, ← ih, firstForeign]
    cases hi : ace.inheritOnly with
    | true => simp [Ace.Passed, hi]
    | false =>
      cases ha : ace.allows with
      | false =>
        cases hd : ace.denies with
        | true => simp [Ace.Passed, Ace.GrantsForeign, hi, ha, hd]
        | false => simp [Ace.Passed, hi, ha, hd]
      | true =>
        by_cases hm : ace.mask &&& rights = 0
        · have ho := (and_eq_zero_iff _ _).1 hm
          simp [Ace.Passed, Ace.GrantsForeign, hi, ha, hm, ho]
        · have ho : Overlap ace.mask rights := not_not.1 (mt (and_eq_zero_iff _ _).2 hm)
          cases hs : sidString ace.sid with
          | error kind =>
            simp [Ace.Passed, Ace.GrantsForeign, Ace.ForAccepted, hi, ha, hm, ho, bind, Except.bind, hs]
          | ok trustee =>
            by_cases hacc : accepted trustee user = true
            · simp [Ace.Passed, Ace.GrantsForeign, Ace.ForAccepted, hi, ha, hm, ho, bind, Except.bind, hs, hacc]
            · simp [Ace.Passed, Ace.GrantsForeign, Ace.ForAccepted, hi, ha, hm, ho, bind, Except.bind, hs, hacc]

section
variable {user : Text} {rights : UInt32}

/-- An entry that passes grants nothing of `rights` to a principal who is not named by it. -/
theorem Ace.Passed.not_decides {ace : Ace} (hpass : ace.Passed user rights) {security : Security}
    {p : Principal} (hp : p.Foreign user) (howns : p.owns security = false) {i : ℕ}
    (hi : rights.toNat.testBit i = true) : ace.decides ev security p i ≠ some true := by
  intro hd
  unfold Ace.decides at hd
  obtain hinh | ⟨hread, hgrant⟩ := hpass
  · simp [hinh] at hd
  · have hinh : ace.inheritOnly = false := by
      cases h : ace.inheritOnly with
      | false => rfl
      | true => simp [h] at hd
    have hr : (ace.allows || ace.denies) = true := by
      rw [Bool.or_eq_true]; exact hread
    simp only [hinh, hr, Bool.false_eq_true, ↓reduceIte] at hd
    split at hd
    · rename_i hdec
      obtain ⟨hmask, hnamed, -⟩ := hdec
      have hallow : ace.allows = true := by simpa using hd
      refine hgrant ⟨hinh, hallow, ⟨i, hmask, hi⟩, ?_⟩
      -- an accepted trustee is one the principal does not hold, or the owner
      rintro ⟨trustee, htrustee, hacc⟩
      unfold Principal.named at hnamed
      rw [htrustee] at hnamed
      simp only at hnamed
      split at hnamed
      · rw [howns] at hnamed; cases hnamed
      · rename_i howner
        obtain ⟨huser, hsystem, hadministrators⟩ := hp _ hnamed _ htrustee
        simp [accepted, huser, hsystem, hadministrators, howner] at hacc
    · cases hd

/-- A principal who holds no accepted identity is not an accepted owner. -/
theorem Principal.Foreign.not_owns {p : Principal} (hp : p.Foreign user) {security : Security}
    {owner : Text} (howner : ownerString security.owner = .ok owner)
    (hacc : accepted owner user = true) : p.owns security = false := by
  unfold Principal.owns
  cases hsid : security.owner with
  | none => rfl
  | some sid =>
    rw [hsid] at howner
    cases hholds : p.holds sid with
    | false => simpa using hholds
    | true =>
      obtain ⟨huser, hsystem, hadministrators⟩ := hp sid hholds owner howner
      have hrights : owner ≠ ownerRights := by
        rintro rfl
        exact p.not_ownerRights sid hholds howner
      simp [accepted, huser, hsystem, hadministrators, hrights] at hacc

/-- What the check accepts: a list every entry of which passes, and an accepted owner. -/
theorem refuseForeign_eq_ok {whose : String} {unsafeFor : Text → UInt32 → Error}
    {security : Security} :
    refuseForeign whose rights unsafeFor user security = .ok () ↔
      (∃ aces, security.dacl = some aces ∧ ∀ ace ∈ aces, ace.Passed user rights) ∧
        ∃ owner, ownerString security.owner = .ok owner ∧ accepted owner user = true := by
  unfold refuseForeign Security.foreignGrant
  cases hdacl : security.dacl with
  | none => simp
  | some aces =>
    simp only [Option.some.injEq, exists_eq_left', ← firstForeign_eq_none]
    cases hwalk : firstForeign user rights aces with
    | error kind => simp
    | ok found =>
      cases found with
      | some grant => simp
      | none =>
        cases howner : ownerString security.owner with
        | error kind => simp
        | ok owner => by_cases hacc : accepted owner user = true <;> simp [hacc]

/-- Whatever conditions and entries of other types come to, an accepted list keeps others out. -/
theorem keepsOut_of_accepted {whose : String} {unsafeFor : Text → UInt32 → Error}
    {security : Security} (hok : refuseForeign whose rights unsafeFor user security = .ok ()) :
    security.KeepsOut user rights := by
  obtain ⟨⟨aces, hdacl, hpass⟩, owner, howner, hacc⟩ := refuseForeign_eq_ok.1 hok
  intro ev p hp
  have howns := hp.not_owns howner hacc
  refine ⟨?_, howns⟩
  rintro ⟨i, hi, hgranted⟩
  unfold granted at hgranted
  rw [hdacl] at hgranted
  simp only [decide_eq_true_eq] at hgranted
  obtain ⟨ace, hmem, hd⟩ := List.exists_of_findSome?_eq_some hgranted
  exact (hpass ace hmem).not_decides ev hp howns hi hd

/-- A list that only allows, or is for children, is refused for an entry that grants. -/
theorem grants_of_refused {whose : String} {unsafeFor : Text → UInt32 → Error}
    {security : Security} {aces : List Ace} (hdacl : security.dacl = some aces)
    (hallow : ∀ ace ∈ aces, ace.inheritOnly = true ∨ ace.allows = true) {owner : Text}
    (howner : ownerString security.owner = .ok owner) (hacc : accepted owner user = true)
    (hrefused : refuseForeign whose rights unsafeFor user security ≠ .ok ()) :
    ∃ ace ∈ aces, ace.GrantsForeign user rights := by
  by_contra hnone
  refine hrefused (refuseForeign_eq_ok.2 ⟨⟨aces, hdacl, fun ace hmem => ?_⟩, owner, howner, hacc⟩)
  obtain hinh | hall := hallow ace hmem
  · exact .inl hinh
  · exact .inr ⟨.inl hall, fun hgrant => hnone ⟨ace, hmem, hgrant⟩⟩

end

theorem refuseUnsafeFile_eq_ok {name : String} {answers : Answers} :
    refuseUnsafeFile name answers = .ok () ↔ ∃ user security,
      answers.user = .ok user ∧ answers.security = .ok security ∧
        refuseForeign "a store file" fileRights (.unsafeFileAcl name) user security = .ok () := by
  unfold refuseUnsafeFile
  cases answers.user with
  | error kind => simp
  | ok user => cases answers.security <;> simp

theorem refuseUnsafeDir_eq_ok {stat : Except ErrorKind Bool} {answers : Answers} :
    refuseUnsafeDir stat answers = .ok () ↔ stat = .ok true ∧ ∃ user security,
      answers.user = .ok user ∧ answers.security = .ok security ∧
        refuseForeign "the directory" writeRights .unsafeAcl user security = .ok () := by
  unfold refuseUnsafeDir
  rcases stat with kind | (_ | _)
  · simp
  · simp
  · cases answers.user with
    | error kind => simp
    | ok user => cases answers.security <;> simp

/-- A store file or a directory that is accepted keeps everyone else out; and an owned list of
allowances and entries for children is refused only for an entry that grants to someone else. -/
theorem accepted_list_keeps_out (name : String) (stat : Except ErrorKind Bool) (answers : Answers) :
    (refuseUnsafeFile name answers = .ok () → ∃ user security, answers.user = .ok user ∧
      answers.security = .ok security ∧ security.KeepsOut user fileRights) ∧
    (refuseUnsafeDir stat answers = .ok () → ∃ user security, answers.user = .ok user ∧
      answers.security = .ok security ∧ security.KeepsOut user writeRights) ∧
    ∀ user security aces owner, answers.user = .ok user → answers.security = .ok security →
      security.dacl = some aces →
      (∀ ace ∈ aces, ace.inheritOnly = true ∨ ace.allows = true) →
      ownerString security.owner = .ok owner → accepted owner user = true →
      (refuseUnsafeFile name answers ≠ .ok () → ∃ ace ∈ aces, ace.GrantsForeign user fileRights) ∧
      (stat = .ok true → refuseUnsafeDir stat answers ≠ .ok () →
        ∃ ace ∈ aces, ace.GrantsForeign user writeRights) := by
  refine ⟨fun hok => ?_, fun hok => ?_, ?_⟩
  · obtain ⟨user, security, huser, hsecurity, hok⟩ := refuseUnsafeFile_eq_ok.1 hok
    exact ⟨user, security, huser, hsecurity, keepsOut_of_accepted hok⟩
  · obtain ⟨-, user, security, huser, hsecurity, hok⟩ := refuseUnsafeDir_eq_ok.1 hok
    exact ⟨user, security, huser, hsecurity, keepsOut_of_accepted hok⟩
  · intro user security aces owner huser hsecurity hdacl hallow howner hacc
    refine ⟨fun hrefused => ?_, fun hstat hrefused => ?_⟩
    · have hlist : refuseForeign "a store file" fileRights (.unsafeFileAcl name) user security ≠
          .ok () :=
        fun hok => hrefused (refuseUnsafeFile_eq_ok.2 ⟨user, security, huser, hsecurity, hok⟩)
      exact grants_of_refused hdacl hallow howner hacc hlist
    · have hlist : refuseForeign "the directory" writeRights .unsafeAcl user security ≠ .ok () :=
        fun hok => hrefused (refuseUnsafeDir_eq_ok.2 ⟨hstat, user, security, huser, hsecurity, hok⟩)
      exact grants_of_refused hdacl hallow howner hacc hlist

end

end MochimoWallet.Keystore.Perms
