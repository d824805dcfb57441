import Mathlib.Logic.Relation
import MochimoWallet.Keystore.Open
import MochimoWallet.Keystore.Release

/-!
# Runs of a store

A `World` is the store's directory, the handle a process has open on it, the receipts
callers hold and the signatures that left. One step of it is one call (to create, to
open, a write, a signature by receipt or by reservation), the end of a process, or a
power cut; each call can take any answer of the system and any fate of its medium
steps. `World.Step.refines` is the connection to the store machine: what the
directory's entry reads as changes by one transition or not at all, and a live
handle's memory is what its entry reads as.
-/

namespace MochimoWallet.Keystore

open Codec OneTime

section
variable [Crypto]

structure World where
  disk : Disk
  handle : Option Keystore
  receipts : List AdvanceReceipt
  signed : List Released

/-- What one step of a run was. -/
inductive Event where
  | create
  | open'
  | write (op : Op)
  | spend (x : Option Released)
  | resign (tag : Tag) (x : Option Released)
  /-- The handle dropped, or its process ended between calls. -/
  | close
  | powerCut

/-- Whether a step is a power cut. -/
def Event.isPowerCut : Event → Bool
  | .powerCut => true
  | _ => false

theorem Event.ne_powerCut {e : Event} (h : e.isPowerCut = false) : e ≠ .powerCut := by
  rintro rfl
  cases h

/-- The handle a call leaves: none once the process has ended. -/
def survivor {α : Type} : Reply Error α → Keystore → Option Keystore
  | .killed, _ => none
  | _, ks => some ks

/-- The receipt a call returned. -/
def minted : Reply Error (Option AdvanceReceipt) → List AdvanceReceipt
  | .ok receipt => receipt.toList
  | _ => []

/-- The handle a call to create or open returned. -/
def returned : Reply Error Keystore → Option Keystore
  | .ok ks => some ks
  | _ => none

namespace World

/-- One step, over the store whose images `password` opens. A call may come with another password,
but then it makes no snapshot and opens none. -/
inductive Step (password : Bytes) (w : World) : Event → World → Prop where
  | create {answers : Answers} {init : Init} {fates : List Fate} {calls : List MediumCall}
      {m : UnixMedium} {r : Reply Error Keystore} (hclosed : w.handle = none)
      (hpassword : init.password = password ∨ m.disk.snapshot = w.disk.snapshot)
      (h : createWith answers init ⟨w.disk, fates, calls⟩ = (r, m)) :
      Step password w .create { w with disk := m.disk, handle := returned r }
  | open' {answers : Answers} {unlock : Unlock} {fates : List Fate} {calls : List MediumCall}
      {m : UnixMedium} {r : Reply Error Keystore} (hclosed : w.handle = none)
      (hpassword : unlock.password = password ∨ returned r = none)
      (h : openWith answers unlock ⟨w.disk, fates, calls⟩ = (r, m)) :
      Step password w .open' { w with disk := m.disk, handle := returned r }
  | write {op : Op} {ks : Keystore} {fates : List Fate} {calls : List MediumCall}
      {r : Reply Error (Option AdvanceReceipt)} {s : Opened UnixMedium} (hks : w.handle = some ks)
      (h : op.call ⟨ks, ⟨w.disk, fates, calls⟩⟩ = (r, s)) :
      Step password w (.write op) { w with
        disk := s.medium.disk
        handle := survivor r s.ks
        receipts := minted r ++ w.receipts }
  | spend {ks : Keystore} {digest : Digest} {receipt : AdvanceReceipt} {access : KeyAccess}
      (hks : w.handle = some ks) (hheld : receipt ∈ w.receipts) :
      Step password w (.spend (ks.spendRelease digest receipt access))
        { w with signed := (ks.spendRelease digest receipt access).toList ++ w.signed }
  | resign {ks : Keystore} {tag : Tag} {access : KeyAccess} (hks : w.handle = some ks) :
      Step password w (.resign tag (ks.resignRelease tag access))
        { w with signed := (ks.resignRelease tag access).toList ++ w.signed }
  | close : Step password w .close { w with handle := none }
  /-- The entry may come back as the device last had it; a temporary file may survive in part. -/
  | powerCut {entry temp : Option Bytes}
      (hentry : entry = w.disk.snapshot ∨ entry = w.disk.durable) :
      Step password w .powerCut { w with disk := ⟨entry, temp, entry⟩, handle := none }

/-- A run of steps that `ok` allows. -/
def Run (password : Bytes) (ok : World → Event → Prop) : World → World → Prop :=
  Relation.ReflTransGen fun w w' => ∃ e, ok w e ∧ w.Step password e w'

/-! ## What the directory says -/

/-- The state an entry of the directory reads as. -/
def reading (password : Bytes) (entry : Option Bytes) : Option Parsed :=
  entry.bind fun image => (readStore password image).toOption

/-- What the next open would find. -/
def state (w : World) (password : Bytes) : Option Parsed := reading password w.disk.snapshot

/-- What it would find after a power cut that loses the unflushed entry. -/
def flushed (w : World) (password : Bytes) : Option Parsed := reading password w.disk.durable

theorem reading_eq_some {password : Bytes} {entry : Option Bytes} {p : Parsed} :
    reading password entry = some p ↔ ∃ image, entry = some image ∧ readStore password image = .ok p := by
  have htoOption {x : Except Error Parsed} : x.toOption = some p ↔ x = .ok p := by
    cases x <;> simp [Except.toOption]
  cases entry <;> simp [reading, htoOption]

theorem wf_of_reading {password : Bytes} {entry : Option Bytes} {p : Parsed}
    (h : reading password entry = some p) : p.Wf := by
  obtain ⟨image, -, h⟩ := reading_eq_some.mp h
  exact wf_of_readStore h

/-- A live handle's memory is what its directory reads as, and it seals what the password opens. -/
def Sound (w : World) (password : Bytes) : Prop :=
  ∀ ks p, w.handle = some ks → ks.memory = some p →
    ks.crypto.Under password ∧ w.state password = some p

/-- How what the directory reads as can change: not at all, from nothing to the empty store, or by
one write. -/
inductive Change (event : Event) : Option Parsed → Option Parsed → Prop where
  | same {x : Option Parsed} : Change event x x
  | created (h : event = .create) : Change event none (some emptyStore)
  | wrote {op : Op} {p p' : Parsed} (h : event = .write op) (hnext : p.next op = .ok p') :
      Change event (some p) (some p')

theorem Change.of_eq {event : Event} {x x' y y' : Option Parsed} (hx : x = x') (hy : y = y')
    (h : Change event x' y') : Change event x y := by
  rw [hx, hy]
  exact h

/-! ## One step -/

theorem reading_imageOf (hl : Crypto.Lawful) {password : Bytes} {crypto : StoreCrypto}
    (hc : crypto.Under password) {p : Parsed} {image : Bytes}
    (htags : ∀ {tag slot}, p.slots.get? tag = some slot → slot.account.tag = tag)
    (h : imageOf crypto p = .ok image) : reading password (some image) = some p :=
  reading_eq_some.mpr ⟨image, rfl, readStore_imageOf hl hc htags h⟩

/-- What a commit that did not return leaves, as readings. -/
theorem readings_of_leftBy {password image : Bytes} {d d' : Disk} {p : Parsed}
    (hp : reading password (some image) = some p) (h : LeftBy image d d') :
    (reading password d'.snapshot = reading password d.snapshot ∧
      reading password d'.durable = reading password d.durable) ∨
    (reading password d'.snapshot = some p ∧
      (reading password d'.durable = reading password d.durable ∨
        reading password d'.durable = reading password d'.snapshot)) := by
  rcases h with ⟨hs, hd⟩ | ⟨hs, hd | hd⟩
  · exact .inl ⟨by rw [hs], by rw [hd]⟩
  · exact .inr ⟨by rw [hs, hp], .inl (by rw [hd])⟩
  · exact .inr ⟨by rw [hs, hp], .inr (by rw [hd, hs])⟩

/-- A receipt a step added: its write returned, so the device has what the entry says. -/
def Minted (password : Bytes) (w : World) (e : Event) (w' : World) (receipt : AdvanceReceipt) : Prop :=
  w'.flushed password = w'.state password ∧ ∃ op p p', e = .write op ∧
    w.state password = some p ∧ w'.state password = some p' ∧ p.next op = .ok p' ∧
    op.receipt p' = some receipt

/-- What a step other than a power cut does to what the directory reads as. -/
structure Refined (password : Bytes) (w : World) (e : Event) (w' : World) : Prop where
  sound : w'.Sound password
  change : Change e (w.state password) (w'.state password)
  flushed : w'.flushed password = w.flushed password ∨ w'.flushed password = w'.state password
  receipts : ∀ receipt ∈ w'.receipts, receipt ∈ w.receipts ∨ Minted password w e w' receipt

variable {password : Bytes} {w w' : World} {e : Event}

/-- A step that leaves both entries and no live handle but the one there was. -/
theorem Refined.stutter (hs : w.Sound password) (hdisk : w'.disk.snapshot = w.disk.snapshot ∧
    w'.disk.durable = w.disk.durable) (hreceipts : w'.receipts = w.receipts)
    (hhandle : ∀ ks, w'.handle = some ks → w.handle = some ks) : Refined password w e w' := by
  have hstate : w'.state password = w.state password := by rw [state, state, hdisk.1]
  refine ⟨fun ks p hks hm => ?_, hstate ▸ .same, .inl (by rw [World.flushed, World.flushed, hdisk.2]),
    fun receipt h => .inl (hreceipts ▸ h)⟩
  rw [hstate]
  exact hs ks p (hhandle ks hks) hm

theorem refined_create (hl : Crypto.Lawful) {answers : Answers} {init : Init} {fates : List Fate}
    {calls : List MediumCall} {m : UnixMedium} {r : Reply Error Keystore} (hs : w.Sound password)
    (hpassword : init.password = password ∨ m.disk.snapshot = w.disk.snapshot)
    (h : createWith answers init ⟨w.disk, fates, calls⟩ = (r, m)) :
    Refined password w .create { w with disk := m.disk, handle := returned r } := by
  have hnone {e : Reply Error Keystore} (he : (∃ x, e = .err x) ∨ e = .killed) :
      returned e = none := by
    rcases he with ⟨x, rfl⟩ | rfl <;> rfl
  rcases createWith_cases h with ⟨hr, hdisk⟩ | ⟨crypto, image, hempty, hc, himage, hend⟩
  · exact .stutter hs ⟨by rw [hdisk], by rw [hdisk]⟩ rfl fun ks hks => by
      rw [show returned r = none from hnone hr] at hks; cases hks
  -- A snapshot appeared or the entries stayed; in the first case the password is the run's.
  have hp (hpw : init.password = password) : reading password (some image) = some emptyStore :=
    reading_imageOf hl (hpw ▸ hc) (fun hget => by cases hget) himage
  have hstate : w.state password = none := by rw [state, hempty]; rfl
  rcases hend with ⟨ks, rfl, hm, rfl, hdisk⟩ | ⟨hr, hleft⟩
  · have hpw : init.password = password := by
      rcases hpassword with hpw | hsame
      · exact hpw
      · rw [hdisk, hempty] at hsame; cases hsame
    have hnew : reading password m.disk.snapshot = some emptyStore := by rw [hdisk]; exact hp hpw
    refine ⟨fun ks' p hks hm' => ?_, .of_eq hstate hnew (.created rfl), .inr ?_,
      fun _ hmem => .inl hmem⟩
    · cases hks
      rw [hm] at hm'
      cases hm'
      exact ⟨hpw ▸ hc, hnew⟩
    · simp only [World.flushed, state, hdisk]
  · have hks : returned r = none := hnone hr
    rcases hpassword with hpw | hsame
    · refine ⟨fun ks p hks' => ?_, ?_, ?_, fun _ hmem => .inl hmem⟩
      · rw [show returned r = some ks from hks'] at hks; cases hks
      · rcases readings_of_leftBy (hp hpw) hleft with ⟨hsnap, -⟩ | ⟨hsnap, -⟩
        · exact .of_eq rfl hsnap .same
        · exact .of_eq hstate hsnap (.created rfl)
      · rcases readings_of_leftBy (hp hpw) hleft with ⟨-, hdur⟩ | ⟨-, hdur⟩
        · exact .inl hdur
        · exact hdur
    · rcases hleft with hboth | ⟨hsnap, -⟩
      · exact .stutter hs hboth rfl fun ks hks' => by rw [hks] at hks'; cases hks'
      · rw [hsame, hempty] at hsnap; cases hsnap

theorem refined_open {answers : Answers} {unlock : Unlock} {fates : List Fate}
    {calls : List MediumCall} {m : UnixMedium} {r : Reply Error Keystore} (hs : w.Sound password)
    (hpassword : unlock.password = password ∨ returned r = none)
    (h : openWith answers unlock ⟨w.disk, fates, calls⟩ = (r, m)) :
    Refined password w .open' { w with disk := m.disk, handle := returned r } := by
  obtain ⟨hdisk, ⟨e, rfl⟩ | ⟨ks, image, rfl, himage, hunlock⟩⟩ := openWith_cases h
  · exact .stutter hs hdisk rfl fun ks hks => by cases hks
  · obtain ⟨p, hm, hread, hc⟩ := unlockImage_ok hunlock
    have hpw : unlock.password = password := hpassword.resolve_right (by simp [returned])
    rw [hpw] at hread hc
    have hstate : w.state password = some p := reading_eq_some.mpr ⟨image, himage, hread⟩
    have hsame : reading password m.disk.snapshot = w.state password := by rw [hdisk.1]; rfl
    refine ⟨fun ks' p' hks hm' => ?_, .of_eq rfl hsame .same,
      .inl (by simp only [World.flushed, hdisk.2]), fun _ hmem => .inl hmem⟩
    cases hks
    rw [hm] at hm'
    cases hm'
    exact ⟨hc, hsame.trans hstate⟩

theorem refined_write (hl : Crypto.Lawful) {op : Op} {ks : Keystore} {fates : List Fate}
    {calls : List MediumCall} {r : Reply Error (Option AdvanceReceipt)} {s : Opened UnixMedium}
    (hs : w.Sound password) (hks : w.handle = some ks)
    (h : op.call ⟨ks, ⟨w.disk, fates, calls⟩⟩ = (r, s)) :
    Refined password w (.write op) { w with
      disk := s.medium.disk
      handle := survivor r s.ks
      receipts := minted r ++ w.receipts } := by
  rcases hm : ks.memory with _ | p
  · obtain ⟨first, hfirst⟩ := poisoned_of_memory hm
    rw [call_poisoned hfirst op] at h
    cases h
    exact .stutter hs ⟨rfl, rfl⟩ rfl fun ks' hks' => by cases hks'; exact hks
  obtain ⟨hc, hstate⟩ := hs ks p hks hm
  have hwf := wf_of_reading hstate
  -- Every end but a refusal has sealed the transition's result, which the password reads back.
  have hread {p' : Parsed} {image : Bytes} (hnext : p.next op = .ok p')
      (himage : imageOf ks.crypto p' = .ok image) : reading password (some image) = some p' :=
    reading_imageOf hl hc (fun hget => (Parsed.step_of_next hnext).1.touched.tags hwf hget) himage
  have hcut {p' : Parsed} {image : Bytes} {ks' : Option Keystore} (hnext : p.next op = .ok p')
      (himage : imageOf ks.crypto p' = .ok image) (hleft : LeftBy image w.disk s.medium.disk)
      (hdead : ∀ k, ks' = some k → k.memory = none) :
      Refined password w (.write op) ⟨s.medium.disk, ks', w.receipts, w.signed⟩ := by
    refine ⟨fun k q hk hq => ?_, ?_, ?_, fun _ hmem => .inl hmem⟩
    · rw [hdead k hk] at hq; cases hq
    · rcases readings_of_leftBy (hread hnext himage) hleft with ⟨hsnap, -⟩ | ⟨hsnap, -⟩
      · exact .of_eq rfl hsnap .same
      · exact .of_eq hstate hsnap (.wrote rfl hnext)
    · rcases readings_of_leftBy (hread hnext himage) hleft with ⟨-, hdur⟩ | ⟨-, hdur⟩
      · exact .inl hdur
      · exact hdur
  cases call_end hm h with
  | refused ht =>
    subst ht
    exact .stutter hs ⟨rfl, rfl⟩ rfl fun ks' hks' => by cases hks'; exact hks
  | @done p' image hnext himage hsteps hks' =>
    rcases steps_cases hsteps with ⟨-, hdisk⟩ | ⟨⟨e, hr⟩ | hr, -⟩
    · have hnew : reading password s.medium.disk.snapshot = some p' := by
        rw [hdisk]; exact hread hnext himage
      have hboth : reading password s.medium.disk.durable = some p' := by
        rw [hdisk]; exact hread hnext himage
      refine ⟨fun k q hk hq => ?_, .of_eq hstate hnew (.wrote rfl hnext),
        .inr (hboth.trans hnew.symm), fun receipt hmem => ?_⟩
      · cases hk
        rw [hks'] at hq ⊢
        cases hq
        exact ⟨hc, hnew⟩
      · rcases List.mem_append.mp hmem with hmem | hmem
        · exact .inr ⟨hboth.trans hnew.symm, op, p, p', rfl, hstate, hnew, hnext,
            Option.mem_toList.mp hmem⟩
        · exact .inl hmem
    · cases hr
    · cases hr
  | @failed p' image e hnext himage hsteps hks' =>
    rcases steps_cases hsteps with ⟨hr, -⟩ | ⟨-, hleft⟩
    · cases hr
    · exact hcut hnext himage hleft fun k hk => by cases hk; rw [hks']; rfl
  | @killed p' image hnext himage hsteps hks' =>
    rcases steps_cases hsteps with ⟨hr, -⟩ | ⟨-, hleft⟩
    · cases hr
    · exact hcut hnext himage hleft fun k hk => by cases hk

/-- What the directory reads as changes by one transition or not at all, and live handles follow. -/
theorem Step.refines (hl : Crypto.Lawful) (h : w.Step password e w') (hs : w.Sound password)
    (he : e ≠ .powerCut) : Refined password w e w' := by
  cases h with
  | create hclosed hpassword h => exact refined_create hl hs hpassword h
  | open' hclosed hpassword h => exact refined_open hs hpassword h
  | write hks h => exact refined_write hl hs hks h
  | spend hks hheld => exact .stutter hs ⟨rfl, rfl⟩ rfl fun _ h => h
  | resign hks => exact .stutter hs ⟨rfl, rfl⟩ rfl fun _ h => h
  | close => exact .stutter hs ⟨rfl, rfl⟩ rfl fun _ h => by cases h
  | powerCut hentry => exact absurd rfl he

theorem Step.sound (hl : Crypto.Lawful) (h : w.Step password e w') (hs : w.Sound password) :
    w'.Sound password := by
  by_cases he : e = .powerCut
  · subst he
    cases h
    exact fun ks p hks => by cases hks
  · exact (h.refines hl hs he).sound

/-! ## Runs -/

/-- An empty directory, before anything. -/
def nowhere : World := ⟨⟨none, none, none⟩, none, [], []⟩

theorem sound_of_closed (h : w.handle = none) : w.Sound password := fun ks p hks => by
  rw [h] at hks
  cases hks

theorem Run.sound (hl : Crypto.Lawful) {ok : World → Event → Prop} (h : Run password ok w w')
    (hs : w.Sound password) : w'.Sound password := by
  induction h with
  | refl => exact hs
  | tail _ hstep ih =>
    obtain ⟨e, -, hstep⟩ := hstep
    exact hstep.sound hl ih

/-- What holds at the start and is kept by every allowed step from a sound world holds in every
world a run reaches. -/
theorem Run.invariant (hl : Crypto.Lawful) {ok : World → Event → Prop} {I : World → Prop}
    (h : Run password ok w w') (hs : w.Sound password) (hI : I w)
    (hstep : ∀ {v v' e}, v.Sound password → I v → ok v e → v.Step password e v' → I v') : I w' := by
  induction h with
  | refl => exact hI
  | tail hrun hlast ih =>
    obtain ⟨e, hok, hlast⟩ := hlast
    exact hstep (Run.sound hl hrun hs) ih hok hlast

/-! ## Runs computed -/

/-- A step to take, when every answer of the system is a good one. -/
inductive Command where
  | create (init : Init)
  | open' (unlock : Unlock)
  | write (op : Op) (fates : List Fate)
  | spend (digest : Digest) (receipt : AdvanceReceipt) (access : KeyAccess)
  | resign (tag : Tag) (access : KeyAccess)
  | close
  /-- Lose an entry that was not flushed. -/
  | powerCut

/-- The command's step, with the event it is. -/
def exec (password : Bytes) (w : World) : Command → Event × World
  | .create init =>
    match w.handle with
    | some _ => (.close, { w with handle := none })
    | none =>
      let (r, m) := createWith .good { init with password } ⟨w.disk, [], []⟩
      (.create, { w with disk := m.disk, handle := returned r })
  | .open' unlock =>
    match w.handle with
    | some _ => (.close, { w with handle := none })
    | none =>
      let (r, m) := openWith .good { unlock with password } ⟨w.disk, [], []⟩
      (.open', { w with disk := m.disk, handle := returned r })
  | .write op fates =>
    match w.handle with
    | none => (.close, { w with handle := none })
    | some ks =>
      let (r, s) := op.call (⟨ks, ⟨w.disk, fates, []⟩⟩ : Opened UnixMedium)
      (.write op, { w with
        disk := s.medium.disk
        handle := survivor r s.ks
        receipts := minted r ++ w.receipts })
  | .spend digest receipt access =>
    match w.handle with
    | none => (.close, { w with handle := none })
    | some ks =>
      if receipt ∈ w.receipts then
        (.spend (ks.spendRelease digest receipt access),
          { w with signed := (ks.spendRelease digest receipt access).toList ++ w.signed })
      else (.close, { w with handle := none })
  | .resign tag access =>
    match w.handle with
    | none => (.close, { w with handle := none })
    | some ks => (.resign tag (ks.resignRelease tag access),
        { w with signed := (ks.resignRelease tag access).toList ++ w.signed })
  | .close => (.close, { w with handle := none })
  | .powerCut =>
    (.powerCut, { w with disk := ⟨w.disk.durable, none, w.disk.durable⟩, handle := none })

theorem exec_step (password : Bytes) (w : World) (c : Command) :
    w.Step password (w.exec password c).1 (w.exec password c).2 := by
  cases c with
  | create init =>
    simp only [exec]
    split
    · exact .close
    · next h =>
      exact .create h (.inl rfl)
        (show createWith .good { init with password } ⟨w.disk, [], []⟩ = _ from rfl)
  | open' unlock =>
    simp only [exec]
    split
    · exact .close
    · next h =>
      exact .open' h (.inl rfl)
        (show openWith .good { unlock with password } ⟨w.disk, [], []⟩ = _ from rfl)
  | write op fates =>
    simp only [exec]
    split
    · exact .close
    · next h => exact .write h rfl
  | spend digest receipt access =>
    simp only [exec]
    split
    · exact .close
    · next h =>
      split
      · next hheld => exact .spend h hheld
      · exact .close
  | resign tag access =>
    simp only [exec]
    split
    · exact .close
    · next h => exact .resign h
  | close => exact .close
  | powerCut => exact .powerCut (.inr rfl)

theorem exec_write {password : Bytes} {w : World} {ks : Keystore} {op : Op} {fates : List Fate}
    (hks : w.handle = some ks) :
    w.Step password (.write op) (w.exec password (.write op fates)).2 := by
  simp only [exec]
  split
  · next h =>
    rw [hks] at h
    cases h
  · next h => exact .write h rfl

def execAll (password : Bytes) : World → List Command → World
  | w, [] => w
  | w, c :: cs => execAll password (w.exec password c).2 cs

/-- Whether every step of a computed run is one that `ok` allows. -/
def Allowed (password : Bytes) (ok : World → Event → Prop) : World → List Command → Prop
  | _, [] => True
  | w, c :: cs => ok w (w.exec password c).1 ∧ Allowed password ok (w.exec password c).2 cs

theorem allowed_of_forall {password : Bytes} {ok : World → Event → Prop} {cs : List Command}
    (h : ∀ c ∈ cs, ∀ w, ok w (exec password w c).1) (w : World) : Allowed password ok w cs := by
  induction cs generalizing w with
  | nil => trivial
  | cons c cs ih =>
    exact ⟨h c List.mem_cons_self w, ih (fun c' hc => h c' (List.mem_cons_of_mem _ hc)) _⟩

theorem run_execAll {password : Bytes} {ok : World → Event → Prop} {w : World}
    {cs : List Command} (h : Allowed password ok w cs) :
    Run password ok w (w.execAll password cs) := by
  induction cs generalizing w with
  | nil => exact .refl
  | cons c cs ih => exact .head ⟨_, h.1, exec_step password w c⟩ (ih h.2)

/-- Commands that come one after the other are a run. -/
theorem run_of_commands (password : Bytes) (w : World) (cs : List Command) :
    Run password (fun _ _ => True) w (w.execAll password cs) :=
  run_execAll (allowed_of_forall (fun _ _ _ => trivial) w)

instance decidableAllowed (password : Bytes) (ok : World → Event → Prop)
    [∀ w e, Decidable (ok w e)] : ∀ (w : World) (cs : List Command), Decidable (Allowed password ok w cs)
  | _, [] => .isTrue trivial
  | w, c :: cs => @instDecidableAnd _ _ inferInstance
      (decidableAllowed password ok (w.exec password c).2 cs)

end World

end

/-! ### A store to run -/

section

attribute [local instance] Crypto.plain

/-- The derived account 0 of the master that is all zeros. -/
def zeroAccount : Account := .derive (.zero seedLen) 0

/-- A store made with one account in it. -/
def founding : List World.Command :=
  [.create ⟨[], .zero saltLen, .zero nonceSeedLen, ⟨8, 1, 1⟩⟩, .write (.add zeroAccount) []]

def reserving (digest : Digest) (fates : List Fate) : World.Command :=
  .write (.persistAdvance zeroAccount.tag digest ⟨0, 0⟩) fates

def opening : World.Command := .open' ⟨[], .zero nonceSeedLen⟩

def resigning : World.Command := .resign zeroAccount.tag (.master (.zero seedLen))

def spending (digest : Digest) : World.Command :=
  .spend digest ⟨zeroAccount.tag, ⟨1⟩⟩ (.master (.zero seedLen))

end

end MochimoWallet.Keystore
