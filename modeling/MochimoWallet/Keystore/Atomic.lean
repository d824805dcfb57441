import MochimoWallet.Keystore.Run

/-!
# A write happens or it does not

The ways a write on a live handle ends, whatever the medium does (`Outcome`): refused
with nothing touched and the medium not called; returned, with memory holding what
the installed image reads as; or cut short in its commit, where a reopen finds the
state before the write or the state it was to produce, and a handle that is left
refuses every call (`Refuses`).
-/

namespace MochimoWallet.Keystore

open Codec

section
variable [Crypto]

/-- Every call that can refuse, refused with the error that poisoned the handle. -/
structure Refuses (ks : Keystore) (first : Error) : Prop where
  write : ∀ (op : Op) (m : UnixMedium), op.call ⟨ks, m⟩ = (.err (.poisoned first), ⟨ks, m⟩)
  generation : ks.generation = .error (.poisoned first)
  view : ∀ tag, ks.view tag = .error (.poisoned first)
  streamId : ∀ tag, ks.streamId tag = .error (.poisoned first)
  masterSeed : ks.masterSeed = .error (.poisoned first)
  tags : ks.tags = .error (.poisoned first)
  intoRecords : ks.intoRecords = .error (.poisoned first)
  checkSpend : ∀ digest receipt access,
    ks.checkSpend digest receipt access = .error (.poisoned first)
  signSpend : ∀ digest receipt access,
    ks.signSpend digest receipt access = .error (.poisoned first)
  resignReserved : ∀ tag access, ks.resignReserved tag access = .error (.poisoned first)
  addressAt : ∀ tag position access, ks.addressAt tag position access = .error (.poisoned first)
  spendAddresses : ∀ tag access, ks.spendAddresses tag access = .error (.poisoned first)

theorem refuses_of_poisoned {ks : Keystore} {first : Error} (h : ks.state = .poisoned first) :
    Refuses ks first := by
  have hlive : ks.live = .error (.poisoned first) := by simp only [live, h]
  constructor
  case write => exact fun op m => call_poisoned (s := ⟨ks, m⟩) h op
  all_goals
    intros
    simp only [generation, view, streamId, masterSeed, tags, intoRecords, checkSpend, signSpend,
      resolve, resignReserved, addressAt, spendAddresses, hlive, error_bind]

/-- Opened with the password and nothing refused, the directory gives a handle that holds `p`. -/
def Reopens (password : Bytes) (m : UnixMedium) (p : Parsed) : Prop :=
  ∀ nonceSeed, ∃ ks m', openWith .good ⟨password, nonceSeed⟩ m = (.ok ks, m') ∧ ks.memory = some p

/-- How a write on a handle that holds `p` takes `s` to `t`. -/
inductive Outcome (password : Bytes) (s t : Opened UnixMedium) (p : Parsed) (op : Op) :
    Reply Error (Option AdvanceReceipt) → Prop where
  | refused {e : Error} (ht : t = s) : Outcome password s t p op (.err e)
  | done {p' : Parsed} {image : Bytes} (hnext : p.next op = .ok p')
      (hcalls : s.medium.calls ++ [.writeTemp image.length] <+: t.medium.calls)
      (himage : t.medium.disk.snapshot = some image) (hread : readStore password image = .ok p')
      (hm : t.ks.memory = some p') : Outcome password s t p op (.ok (op.receipt p'))
  | failed {p' : Parsed} {n : ℕ} {e : Error} (hnext : p.next op = .ok p')
      (hcalls : s.medium.calls ++ [.writeTemp n] <+: t.medium.calls)
      (hreopen : Reopens password t.medium p ∨ Reopens password t.medium p')
      (hstate : t.ks.state = .poisoned e) (hrefuses : Refuses t.ks e) :
      Outcome password s t p op (.err e)
  | killed {p' : Parsed} {n : ℕ} (hnext : p.next op = .ok p')
      (hcalls : s.medium.calls ++ [.writeTemp n] <+: t.medium.calls)
      (hreopen : Reopens password t.medium p ∨ Reopens password t.medium p') :
      Outcome password s t p op .killed

variable {password : Bytes}

theorem reopens_of_reading {m : UnixMedium} {p : Parsed}
    (h : World.reading password m.disk.snapshot = some p) : Reopens password m p := fun nonceSeed => by
  obtain ⟨image, himage, hread⟩ := World.reading_eq_some.mp h
  obtain ⟨ks, hopen, hm⟩ := openWith_good nonceSeed himage hread
  exact ⟨ks, _, hopen, hm⟩

/-- What an opened store holds is what its snapshot reads as. -/
theorem reading_of_open {answers : Answers} {unlock : Unlock} {m m' : UnixMedium} {ks : Keystore}
    (h : openWith answers unlock m = (.ok ks, m')) :
    ∃ p, ks.memory = some p ∧ World.reading unlock.password m.disk.snapshot = some p := by
  obtain ⟨e, he⟩ | ⟨ks', image, hks, himage, hunlock⟩ := (openWith_cases h).2
  · cases he
  cases hks
  obtain ⟨p, hm, hread, -⟩ := unlockImage_ok hunlock
  exact ⟨p, hm, World.reading_eq_some.mpr ⟨image, himage, hread⟩⟩

/-- A commit that was cut short leaves the state before or the state after to be found. -/
theorem reopens_of_leftBy {image : Bytes} {d : Disk} {t : UnixMedium} {p p' : Parsed}
    (hp : World.reading password d.snapshot = some p)
    (hp' : World.reading password (some image) = some p') (h : LeftBy image d t.disk) :
    Reopens password t p ∨ Reopens password t p' := by
  rcases World.readings_of_leftBy hp' h with ⟨hsnap, -⟩ | ⟨hsnap, -⟩
  · exact .inl (reopens_of_reading (hsnap.trans hp))
  · exact .inr (reopens_of_reading hsnap)

/-- Every write on a live handle, in every world a run reaches, whatever its medium steps do. -/
theorem write_atomic (hl : Crypto.Lawful) {ok : World → Event → Prop} {w₀ w : World}
    (hclosed : w₀.handle = none) (hrun : World.Run password ok w₀ w) {ks : Keystore} {p : Parsed}
    (hks : w.handle = some ks) (hm : ks.memory = some p) {op : Op} {fates : List Fate}
    {calls : List MediumCall} {r : Reply Error (Option AdvanceReceipt)} {t : Opened UnixMedium}
    (h : op.call ⟨ks, ⟨w.disk, fates, calls⟩⟩ = (r, t)) :
    Outcome password ⟨ks, ⟨w.disk, fates, calls⟩⟩ t p op r := by
  obtain ⟨hc, hstate⟩ := hrun.sound hl (World.sound_of_closed hclosed) ks p hks hm
  have hwf := World.wf_of_reading hstate
  have hread {p' : Parsed} {image : Bytes} (hnext : p.next op = .ok p')
      (himage : imageOf ks.crypto p' = .ok image) : readStore password image = .ok p' :=
    readStore_imageOf hl hc (fun hget => (Parsed.step_of_next hnext).1.touched.tags hwf hget) himage
  cases call_end hm h with
  | refused ht => exact .refused ht
  | done hnext himage hsteps hks' =>
    rcases steps_cases hsteps with ⟨-, hdisk⟩ | ⟨⟨e, hr⟩ | hr, -⟩
    · exact .done hnext (steps_calls hsteps) (by rw [hdisk]) (hread hnext himage) (by rw [hks']; rfl)
    · cases hr
    · cases hr
  | failed hnext himage hsteps hks' =>
    rcases steps_cases hsteps with ⟨hr, -⟩ | ⟨-, hleft⟩
    · cases hr
    · exact .failed hnext (steps_calls hsteps)
        (reopens_of_leftBy hstate (World.reading_eq_some.mpr ⟨_, rfl, hread hnext himage⟩) hleft)
        (by rw [hks']) (refuses_of_poisoned (by rw [hks']))
  | killed hnext himage hsteps hks' =>
    rcases steps_cases hsteps with ⟨hr, -⟩ | ⟨-, hleft⟩
    · cases hr
    · exact .killed hnext (steps_calls hsteps)
        (reopens_of_leftBy hstate (World.reading_eq_some.mpr ⟨_, rfl, hread hnext himage⟩) hleft)

end

section

attribute [local instance] Crypto.plain

/-- A reservation whose rename takes effect and reports a failure. -/
theorem write_atomic_founding :
    ∃ ks p, (World.nowhere.execAll [] founding).handle = some ks ∧ ks.memory = some p ∧
      ∃ r t, Outcome [] ⟨ks, ⟨(World.nowhere.execAll [] founding).disk,
        [.done, .done, .failed true none .missing], []⟩⟩ t p
        (.persistAdvance zeroAccount.tag (.replicate 32 1) ⟨0, 0⟩) r := by
  have hrun : World.Run [] (fun _ _ => True) World.nowhere
      (World.nowhere.execAll [] founding) := World.run_execAll (by decide +kernel)
  have hlive : ((World.nowhere.execAll [] founding).handle.bind memory).isSome := by decide +kernel
  obtain ⟨p, hp⟩ := Option.isSome_iff_exists.mp hlive
  obtain ⟨ks, hks, hm⟩ := Option.bind_eq_some_iff.mp hp
  exact ⟨ks, p, hks, hm, _, _, write_atomic Crypto.plain_lawful rfl hrun hks hm rfl⟩

end

end MochimoWallet.Keystore
