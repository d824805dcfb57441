import MochimoWallet.Wallet

/-!
# The discover command

Discover derives the tags of a seed's first accounts and asks the node about each in
turn. A sighting is what the node said of one index, and what the store holds of it. Code
4 is an answer, with no entry in it; any other failure ends the sweep, which has no part
to report. The store is read and never written (`quiet_sweep`).
-/

namespace MochimoWallet

open Codec Keystore Session

/-- The tag half of an account's first address. -/
def deriveAccountTag [Crypto] (master : Secret) (accountIndex : UInt32) : Tag :=
  (firstKey (deriveSeed master.1 accountIndex)).tag

namespace Cli

structure Sighting where
  account : UInt32
  tag : Tag
  entry : Option LedgerEntry
  held : Option (AccountKind × WotsIndex)
  deriving DecidableEq

/-- What was searched, its last index included, and what was seen. -/
structure Sweep where
  to' : UInt32
  sightings : List Sighting
  deriving DecidableEq

/-- How many indices the node resolved. -/
def Sweep.resolved (sweep : Sweep) : ℕ := (sweep.sightings.filter fun s => s.entry.isSome).length

inductive SweepFailure where
  | chainUnreachable (account searched : UInt32) (cause : Error)
  deriving DecidableEq

/-- The indices a sweep searches. -/
def sweepAccounts (to' : UInt32) : List UInt32 := (List.range (to'.toNat + 1)).map .ofNat

section
variable [Crypto] {D : Type}

/-- What the store records of a tag; what it cannot say is not held. -/
def heldIn (ks : Keystore) (tag : Tag) : Option (AccountKind × WotsIndex) :=
  match ks.view tag with
  | .ok (some view) => some (view.kind, view.wotsIndex)
  | .ok none | .error _ => none

/-- Ask the node about one index. -/
def sight (master : Secret) (sightings : List Sighting) (account : UInt32) :
    Call (Session D) (Unfinished SweepFailure) (List Sighting) := do
  let tag := deriveAccountTag master account
  let answer ← asking fun _ => (Node.resolveTag tag).attempt
  let s ← Call.get
  match answer with
  | .ok entry => pure (sightings ++ [⟨account, tag, some entry, heldIn s.store.ks tag⟩])
  | .error (.mesh 4 _) => pure (sightings ++ [⟨account, tag, none, heldIn s.store.ks tag⟩])
  | .error cause => Call.refuse (.refused (.chainUnreachable account account cause))

def sightAll (master : Secret) (cancel : Cancel) :
    List UInt32 → List Sighting → Call (Session D) (Unfinished SweepFailure) (List Sighting)
  | [], sightings => pure sightings
  | account :: accounts, sightings => do
    let stop ← asking fun _ => Wallet.askStop cancel
    Wallet.stopIf stop cancel
    let sightings ← sight master sightings account
    sightAll master cancel accounts sightings

def sweepAsking (master : Secret) (to' : UInt32) (cancel : Cancel) :
    Call (Session D) (Unfinished SweepFailure) Sweep := do
  let sightings ← sightAll master cancel (sweepAccounts to') []
  pure ⟨to', sightings⟩

/-! ## What a sweep leaves -/

variable {master : Secret} {to' : UInt32} {cancel : Cancel}

/-- What a question that is always answered leaves, taken as a value. -/
theorem quiet_value {ε δ α : Type} {x : Keystore → Call Node δ α}
    (hx : ∀ {ks n n' r}, x ks n = (r, n') → r ≠ .killed) :
    Call.Quiet (Session.store (D := D)) (asking (ε := ε) fun ks => (x ks).attempt) :=
  quiet_asking fun h => by
    rcases Call.attempt_cases h with ⟨found, rfl, -⟩ | ⟨-, hkilled⟩
    · simp
    · exact absurd rfl (hx hkilled)

omit [Crypto] in
theorem resolveTag_not_killed {tag : Tag} {n n' : Node} {r : Reply Error LedgerEntry}
    (h : Node.resolveTag tag n = (r, n')) : r ≠ .killed := by
  rcases Node.resolveTag_cases h with ⟨_, rfl, -⟩ | ⟨⟨_, rfl⟩, -⟩ <;> simp

theorem quiet_sight (sightings : List Sighting) (account : UInt32) :
    Call.Quiet Session.store (sight (D := D) master sightings account) := by
  refine (quiet_value resolveTag_not_killed).bind fun answer => Call.Quiet.get.bind fun s => ?_
  split
  · exact .pure _
  · exact .pure _
  · exact .refuse _

theorem quiet_sightAll (accounts : List UInt32) : ∀ sightings,
    Call.Quiet Session.store (sightAll (D := D) master cancel accounts sightings) := by
  induction accounts with
  | nil => exact fun sightings => .pure _
  | cons account accounts ih =>
    exact fun sightings => Wallet.quiet_askStop.bind fun stop => Wallet.quiet_stopIf.bind fun _ =>
      (quiet_sight sightings account).bind ih

/-- A sweep leaves the store as it is. -/
theorem quiet_sweep : Call.Quiet Session.store (sweepAsking (D := D) master to' cancel) :=
  (quiet_sightAll _ _).bind fun _ => .pure _

end

end Cli

end MochimoWallet
