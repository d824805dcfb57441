import MochimoWallet.Keystore.Handle

/-!
# The Unix layout

A commit writes a temporary file, flushes it, renames it over the snapshot and
flushes the directory. Each step can return, fail or be cut short by a kill, and a
step that did not return may or may not have taken effect: `Fate` says which, one
fate for each step the medium is asked to take.

`Disk` is the store's directory as the two readers of it see it. `snapshot` is the
entry a process reads; `durable` is the entry the device holds, which a rename does
not change until the directory has been flushed. The file a renamed entry names was
flushed before the rename, so only the entry is in doubt.
-/

namespace MochimoWallet.Keystore

open Codec

structure Disk where
  snapshot : Option Bytes
  temp : Option Bytes
  durable : Option Bytes
  deriving DecidableEq

/-- What becomes of one step of the medium. -/
inductive Fate where
  | done
  /-- The step returns `e`, having taken effect or not; an unfinished write leaves `left`. -/
  | failed (took : Bool) (left : Option Bytes) (e : Error)
  /-- The process ends in the step. -/
  | killed (took : Bool) (left : Option Bytes)

/-- The medium's calls, as an instrumented medium records them. -/
inductive MediumCall where
  | writeTemp (len : ℕ)
  | fsyncFile
  | rename
  | fsyncDir
  | fsyncParent
  deriving DecidableEq

/-- A directory, what will become of the next steps on it, and the calls made so far. -/
structure UnixMedium where
  disk : Disk
  fates : List Fate
  calls : List MediumCall

structure Written where
structure Synced where
structure Renamed where

/-- One step: its effect on the directory, and what is there when it is cut short. -/
def mediumStep {α : Type} (call : MediumCall) (a : α) (effect : Disk → Disk)
    (short : Option Bytes → Disk → Disk) : Call UnixMedium Error α := fun m =>
  let calls := m.calls ++ [call]
  let after took left := if took then effect m.disk else short left m.disk
  match m.fates with
  | [] | .done :: _ => (.ok a, ⟨effect m.disk, m.fates.tail, calls⟩)
  | .failed took left e :: fates => (.err e, ⟨after took left, fates, calls⟩)
  | .killed took left :: fates => (.killed, ⟨after took left, fates, calls⟩)

/-- A stale temporary file is unlinked first; a write cut short leaves any part of one. -/
def writeTemp (image : Bytes) : Call UnixMedium Error Written :=
  mediumStep (.writeTemp image.length) ⟨⟩ (fun d => { d with temp := some image })
    fun left d => { d with temp := left }

def fsyncFile (_ : Written) : Call UnixMedium Error Synced :=
  mediumStep .fsyncFile ⟨⟩ id fun _ d => d

def rename (_ : Synced) : Call UnixMedium Error Renamed :=
  mediumStep .rename ⟨⟩ (fun d => { d with snapshot := d.temp, temp := none }) fun _ d => d

def fsyncDir (_ : Renamed) : Call UnixMedium Error Unit :=
  mediumStep .fsyncDir () (fun d => { d with durable := d.snapshot }) fun _ d => d

def fsyncParent : Call UnixMedium Error Unit :=
  mediumStep .fsyncParent () id fun _ d => d

instance : Layout UnixMedium where
  steps image := do
    let written ← writeTemp image
    let synced ← fsyncFile written
    let renamed ← rename synced
    fsyncDir renamed

/-! ## What the steps can do -/

theorem mediumStep_cases {α : Type} {call : MediumCall} {a : α} {effect : Disk → Disk}
    {short : Option Bytes → Disk → Disk} {m m' : UnixMedium} {r : Reply Error α}
    (h : mediumStep call a effect short m = (r, m')) :
    (r = .ok a ∧ m'.disk = effect m.disk) ∨
      ((∃ e, r = .err e) ∨ r = .killed) ∧
        (m'.disk = effect m.disk ∨ ∃ left, m'.disk = short left m.disk) := by
  unfold mediumStep at h
  split at h <;> cases h
  · exact .inl ⟨rfl, rfl⟩
  · exact .inl ⟨rfl, rfl⟩
  · next took left e _ _ =>
    refine .inr ⟨.inl ⟨e, rfl⟩, ?_⟩
    cases took
    · exact .inr ⟨left, rfl⟩
    · exact .inl rfl
  · next took left _ _ =>
    refine .inr ⟨.inr rfl, ?_⟩
    cases took
    · exact .inr ⟨left, rfl⟩
    · exact .inl rfl

/-- A step and what follows it: the step done and the rest run from there, or the step cut short. -/
theorem short_or_next {α β : Type} {call : MediumCall} {a : α} {effect : Disk → Disk}
    {short : Option Bytes → Disk → Disk} {f : α → Call UnixMedium Error β} {m m' : UnixMedium}
    {r : Reply Error β} (h : (mediumStep call a effect short >>= f) m = (r, m')) :
    (∃ b u, u.disk = effect m.disk ∧ f b u = (r, m')) ∨
      ((∃ e, r = .err e) ∨ r = .killed) ∧
        (m'.disk = effect m.disk ∨ ∃ left, m'.disk = short left m.disk) := by
  rcases Call.bind_cases h with ⟨b, u, hstep, h⟩ | ⟨e, hstep, rfl⟩ | ⟨hstep, rfl⟩
  · rcases mediumStep_cases hstep with ⟨-, hu⟩ | ⟨⟨e, hr⟩ | hr, -⟩
    · exact .inl ⟨b, u, hu, h⟩
    · cases hr
    · cases hr
  · rcases mediumStep_cases hstep with ⟨hr, -⟩ | ⟨-, hm⟩
    · cases hr
    · exact .inr ⟨.inl ⟨e, rfl⟩, hm⟩
  · rcases mediumStep_cases hstep with ⟨hr, -⟩ | ⟨-, hm⟩
    · cases hr
    · exact .inr ⟨.inr rfl, hm⟩

/-- What a commit of `image` that did not return leaves of the directory: the entry of before, or
the new one with the device's own entry old or new. -/
def LeftBy (image : Bytes) (d d' : Disk) : Prop :=
  (d'.snapshot = d.snapshot ∧ d'.durable = d.durable) ∨
    (d'.snapshot = some image ∧ (d'.durable = d.durable ∨ d'.durable = some image))

/-- The four steps: all of them done, or one of them cut short. -/
theorem steps_cases {image : Bytes} {m m' : UnixMedium} {r : Reply Error Unit}
    (h : Layout.steps image m = (r, m')) :
    (r = .ok () ∧ m'.disk = ⟨some image, none, some image⟩) ∨
      ((∃ e, r = .err e) ∨ r = .killed) ∧ LeftBy image m.disk m'.disk := by
  have hkept {d : Disk} (hs : d.snapshot = m.disk.snapshot) (hd : d.durable = m.disk.durable) :
      LeftBy image m.disk d := .inl ⟨hs, hd⟩
  rcases short_or_next h with ⟨w, u, hw, h⟩ | ⟨hr, hw⟩
  · have hu : u.disk = { m.disk with temp := some image } := hw
    rcases short_or_next h with ⟨y, v, hy, h⟩ | ⟨hr, hy⟩
    · have hv : v.disk = u.disk := hy
      rcases short_or_next h with ⟨n, x, hn, h⟩ | ⟨hr, hn⟩
      · have hx : x.disk = { v.disk with snapshot := v.disk.temp, temp := none } := hn
        rw [hv, hu] at hx
        rcases mediumStep_cases h with ⟨hr, hm⟩ | ⟨hr, hm | ⟨left, hm⟩⟩
        · exact .inl ⟨hr, by rw [hm, hx]⟩
        · exact .inr ⟨hr, .inr ⟨by rw [hm, hx], .inr (by rw [hm, hx])⟩⟩
        · exact .inr ⟨hr, .inr ⟨by rw [hm, hx], .inl (by rw [hm, hx])⟩⟩
      · rcases hn with hn | ⟨left, hn⟩
        · exact .inr ⟨hr, .inr ⟨by rw [hn, hv, hu], .inl (by rw [hn, hv, hu])⟩⟩
        · exact .inr ⟨hr, hkept (by rw [hn, hv, hu]) (by rw [hn, hv, hu])⟩
    · have hm : m'.disk = u.disk := by rcases hy with hy | ⟨left, hy⟩ <;> exact hy
      exact .inr ⟨hr, hkept (by rw [hm, hu]) (by rw [hm, hu])⟩
  · rcases hw with hw | ⟨left, hw⟩ <;> exact .inr ⟨hr, hkept (by rw [hw]) (by rw [hw])⟩

/-! ## The calls the steps make -/

theorem mediumStep_calls {α : Type} {call : MediumCall} {a : α} {effect : Disk → Disk}
    {short : Option Bytes → Disk → Disk} {m m' : UnixMedium} {r : Reply Error α}
    (h : mediumStep call a effect short m = (r, m')) : m'.calls = m.calls ++ [call] := by
  unfold mediumStep at h
  split at h <;> cases h <;> rfl

theorem calls_of_bind {α β : Type} {call : MediumCall} {a : α} {effect : Disk → Disk}
    {short : Option Bytes → Disk → Disk} {f : α → Call UnixMedium Error β} {m m' : UnixMedium}
    {r : Reply Error β} (h : (mediumStep call a effect short >>= f) m = (r, m'))
    (hf : ∀ {b u r'}, f b u = (r', m') → u.calls <+: m'.calls) :
    m.calls ++ [call] <+: m'.calls := by
  rcases Call.bind_cases h with ⟨b, u, hstep, h⟩ | ⟨e, hstep, -⟩ | ⟨hstep, -⟩
  · exact mediumStep_calls hstep ▸ hf h
  · exact mediumStep_calls hstep ▸ List.prefix_rfl
  · exact mediumStep_calls hstep ▸ List.prefix_rfl

/-- A commit has called the medium, however it ended. -/
theorem steps_calls {image : Bytes} {m m' : UnixMedium} {r : Reply Error Unit}
    (h : Layout.steps image m = (r, m')) :
    m.calls ++ [.writeTemp image.length] <+: m'.calls := by
  have hlast {call : MediumCall} {l : List MediumCall} (hl : l ++ [call] <+: m'.calls) :
      l <+: m'.calls := (List.prefix_append ..).trans hl
  refine calls_of_bind h fun h => hlast (calls_of_bind h fun h => hlast (calls_of_bind h fun h => ?_))
  rw [mediumStep_calls h]
  exact List.prefix_append ..

end MochimoWallet.Keystore
