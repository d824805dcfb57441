import MochimoWallet.Mesh.Spend
import MochimoWallet.Lib.Call

/-!
# The node

A wallet asks a node it does not trust. `Node` holds the answers to come, so that a
run can take any of them, whatever was answered before; and the entries heard so
far. A lookup that answers an address of another tag is refused as the client's
decoder refuses it. The caller's own cancel is asked the same way.
-/

namespace MochimoWallet

open Codec

/-- What is to come of each question, and the entries answered so far, the newest first. -/
structure Node where
  entries : List (Except Error LedgerEntry)
  tips : List (Except Error UInt64)
  echoes : List (Except Error Digest)
  stops : List Bool
  heard : List (Tag × LedgerEntry)

/-- Whether a call can be stopped by its caller. -/
inductive Cancel where
  | never
  | when
  deriving DecidableEq

namespace Node

/-- A node that says nothing more. -/
def silence : Error := .transport "connect" .connect

def resolveTag (tag : Tag) : Call Node Error LedgerEntry := fun n =>
  match n.entries with
  | [] => (.err silence, n)
  | .error e :: entries => (.err e, { n with entries })
  | .ok entry :: entries =>
    if tagOf entry.address ≠ tag then
      (.err (.meshResponse "result.address: does not begin with the tag resolved"),
        { n with entries })
    else (.ok entry, { n with entries, heard := (tag, entry) :: n.heard })

/-- The index of the chain's tip. -/
def networkStatus : Call Node Error UInt64 := fun n =>
  match n.tips with
  | [] => (.err silence, n)
  | .error e :: tips => (.err e, { n with tips })
  | .ok tip :: tips => (.ok tip, { n with tips })

def submit [Crypto] (signed : SignedTransaction) : Call Node Error Digest := fun n =>
  match n.echoes with
  | [] => (.err silence, n)
  | .error e :: echoes => (.err e, { n with echoes })
  | .ok echoed :: echoes =>
    if echoed ≠ signed.id then (.err .submitIdMismatch, { n with echoes })
    else (.ok echoed, { n with echoes })

/-- Ask the caller whether to stop. -/
def stop (cancel : Cancel) (n : Node) : Bool × Node :=
  match cancel, n.stops with
  | .never, _ | .when, [] => (false, n)
  | .when, b :: stops => (b, { n with stops })

/-! ## What the questions leave -/

/-- A lookup is answered with an entry of its tag, which is heard, or not at all. -/
theorem resolveTag_cases {tag : Tag} {n n' : Node} {r : Reply Error LedgerEntry}
    (h : resolveTag tag n = (r, n')) :
    (∃ entry, r = .ok entry ∧ tagOf entry.address = tag ∧ n'.heard = (tag, entry) :: n.heard) ∨
      (∃ e, r = .err e) ∧ n'.heard = n.heard := by
  unfold resolveTag at h
  split at h
  · cases h
    exact .inr ⟨⟨_, rfl⟩, rfl⟩
  · cases h
    exact .inr ⟨⟨_, rfl⟩, rfl⟩
  · next entry entries _ =>
    split at h
    · cases h
      exact .inr ⟨⟨_, rfl⟩, rfl⟩
    · next htag =>
      cases h
      exact .inl ⟨entry, rfl, not_not.mp htag, rfl⟩

theorem resolveTag_entries {tag : Tag} {n n' : Node} {entry : LedgerEntry}
    (h : resolveTag tag n = (.ok entry, n')) : ∃ entries, n.entries = .ok entry :: entries := by
  unfold resolveTag at h
  split at h
  · cases h
  · cases h
  · next entry' entries heq =>
    split at h <;> cases h
    exact ⟨entries, heq⟩

/-- The next answer, when it is of the tag that was asked about. -/
theorem resolveTag_answered {tag : Tag} {n : Node} {entry : LedgerEntry}
    {entries : List (Except Error LedgerEntry)} (h : n.entries = .ok entry :: entries)
    (htag : tagOf entry.address = tag) :
    resolveTag tag n = (.ok entry, { n with entries, heard := (tag, entry) :: n.heard }) := by
  unfold resolveTag
  rw [h]
  dsimp only
  rw [if_neg (not_not.mpr htag)]

theorem networkStatus_heard {n n' : Node} {r : Reply Error UInt64} (h : networkStatus n = (r, n')) :
    n'.heard = n.heard ∧ r ≠ .killed := by
  unfold networkStatus at h
  split at h <;> cases h <;> exact ⟨rfl, by simp⟩

theorem submit_not_killed [Crypto] {signed : SignedTransaction} {n n' : Node} {r : Reply Error Digest}
    (h : submit signed n = (r, n')) : r ≠ .killed := by
  unfold submit at h
  split at h
  · cases h
    simp
  · cases h
    simp
  · split at h <;> cases h <;> simp

@[simp] theorem stop_never (n : Node) : n.stop .never = (false, n) := rfl

theorem stop_heard (cancel : Cancel) (n : Node) : (n.stop cancel).2.heard = n.heard := by
  unfold stop
  split <;> rfl

end Node

end MochimoWallet
