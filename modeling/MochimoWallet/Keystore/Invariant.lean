import MochimoWallet.Keystore.Run

/-!
# What every reachable store keeps

`Invariant` is what holds of a store's state in every world a run reaches, on the
device and in a live handle's memory. `Evolved` is what two states along a run have in
common: a slot that is there stays, under its key, with an index that never falls.
Since no writer breaks the invariant, the three inconsistencies the encoder refuses
are never what a call is refused for (`call_not_encoderRefusal`).
-/

namespace MochimoWallet.Keystore

open Codec

section
variable [Crypto]

structure Invariant (p : Parsed) : Prop where
  one_block : ∀ tag slot, p.slots.get? tag = some slot → slot.pending = none ∨ slot.settled = none
  precedes : ∀ tag slot block, p.slots.get? tag = some slot →
    slot.pending = some block ∨ slot.settled = some block →
      block.spentIndex.pos + 1 = slot.account.wotsIndex.pos
  sorted : p.slots.keys.Pairwise (· < ·)
  bounded : p.slots.size ≤ 65536

theorem Parsed.Wf.invariant {p : Parsed} (h : p.Wf) : Invariant p where
  one_block _ _ hget := (h.slots hget).one_block
  precedes tag slot block hget hblock := by
    rcases hblock with hblock | hblock
    · exact (h.slots hget).pending_before block hblock
    · exact (h.slots hget).settled_before block hblock
  sorted := List.pairwise_map.mpr p.slots.sorted
  bounded := h.size

/-! ## One step -/

namespace World

variable {password : Bytes} {w w' : World} {e : Event}

/-- What a step does to the slot of one account: it stays, under its key, with an index that does
not fall; an open reservation stays or is settled, unchanged, by `persistSettled` of this account;
and nothing changes at all unless the step is a write to this account. -/
structure SlotStep (e : Event) (tag : Tag) (slot slot' : Slot) : Prop where
  key : slot'.account.key = slot.account.key
  index : slot.account.wotsIndex.pos ≤ slot'.account.wotsIndex.pos
  pending : ∀ block, slot.pending = some block → slot' = slot ∨
    e = .write (.persistSettled tag) ∧ slot' = ⟨slot.account, none, some block⟩
  frame : (∀ op, e = .write op → op.tag? ≠ some tag) → slot' = slot

theorem SlotStep.refl (e : Event) (tag : Tag) (slot : Slot) : SlotStep e tag slot slot :=
  ⟨rfl, le_refl _, fun _ _ => .inl rfl, fun _ => rfl⟩

/-- Only the settling write settles. -/
theorem settled_op {p p' : Parsed} {op : Op} (h : p.Step p' op) {tag : Tag} {slot slot' : Slot}
    (hslot : p.slots.get? tag = some slot) (hslot' : p'.slots.get? tag = some slot') {block : Pending}
    (hopen : slot.pending = some block) (hmove : slot' ≠ slot) : op = .persistSettled tag := by
  have htag : op.tag? = some tag := by
    by_contra hne
    rw [h.frame hne, hslot] at hslot'
    exact hmove (Option.some.inj hslot').symm
  cases h with
  | adoptMaster => cases htag
  | add hnone => cases htag; rw [hnone] at hslot; cases hslot
  | persistAdvance hget hnone | persistAdvanceTo hget hnone =>
    cases htag
    rw [hslot] at hget
    cases hget
    rw [hopen] at hnone
    cases hnone
  | persistSettled => cases htag; rfl

theorem slotStep_of_next {p p' : Parsed} {op : Op} (h : p.next op = .ok p') {tag : Tag} {slot : Slot}
    (hslot : p.slots.get? tag = some slot) :
    ∃ slot', p'.slots.get? tag = some slot' ∧ SlotStep (.write op) tag slot slot' := by
  have hstep := (Parsed.step_of_next h).1
  obtain ⟨slot', hslot', hmove⟩ := hstep.touched.slot hslot
  refine ⟨slot', hslot', ?_⟩
  by_cases hsame : slot' = slot
  · rw [hsame]
    exact .refl ..
  have hmove := hmove.resolve_left hsame
  refine ⟨hmove.key.1, hmove.index_le, fun block hopen => .inr ⟨?_, hmove.of_pending hopen⟩, ?_⟩
  · rw [settled_op hstep hslot hslot' hopen hsame]
  · intro hframe
    rw [hstep.frame (hframe op rfl), hslot] at hslot'
    exact (Option.some.inj hslot').symm

theorem Change.slot {x y : Option Parsed} (h : Change e x y) {p : Parsed} (hx : x = some p)
    {tag : Tag} {slot : Slot} (hslot : p.slots.get? tag = some slot) :
    ∃ p' slot', y = some p' ∧ p'.slots.get? tag = some slot' ∧ SlotStep e tag slot slot' := by
  cases h with
  | same => exact ⟨p, slot, hx, hslot, .refl ..⟩
  | created => cases hx
  | wrote he hnext =>
    cases hx
    obtain ⟨slot', hslot', hstep⟩ := slotStep_of_next hnext hslot
    exact ⟨_, slot', rfl, hslot', he ▸ hstep⟩

/-! ## Runs -/

/-- What two states along a run have in common. -/
def Evolved (x y : Option Parsed) : Prop :=
  ∀ p tag slot, x = some p → p.slots.get? tag = some slot →
    ∃ p' slot', y = some p' ∧ p'.slots.get? tag = some slot' ∧
      slot'.account.key = slot.account.key ∧
      slot.account.wotsIndex.pos ≤ slot'.account.wotsIndex.pos

theorem evolved_run (hl : Crypto.Lawful) (hs : w.Sound password)
    (hrun : Run password (fun _ e => e.isPowerCut = false) w w') :
    Evolved (w.state password) (w'.state password) := by
  induction hrun with
  | refl =>
    intro p tag slot hp hslot
    exact ⟨p, slot, hp, hslot, rfl, le_refl _⟩
  | tail hrun hlast ih =>
    intro p tag slot hp hslot
    obtain ⟨e, hok, hlast⟩ := hlast
    obtain ⟨q, t, hq, ht, hkey, hindex⟩ := ih p tag slot hp hslot
    have hchange := (hlast.refines hl (Run.sound hl hrun hs) (Event.ne_powerCut hok)).change
    obtain ⟨p', slot', hp', hslot', hstep⟩ := hchange.slot hq ht
    exact ⟨p', slot', hp', hslot', hstep.key.trans hkey, hindex.trans hstep.index⟩

end World

/-! ## The encoder's refusals -/

/-- The three inconsistencies the encoder refuses in a record list. -/
def EncoderRefusal (e : Error) : Prop :=
  ∃ offset, e = .corrupt "records not strictly ascending by tag" offset ∨
    e = .corrupt "both an open and a settled reservation in one record" offset ∨
    e = .corrupt "pending index does not precede wots_index by one" offset

theorem checked_not_encoderRefusal {kdf : Kdf} {e : Error} (h : kdf.checked = .error e) :
    ¬ EncoderRefusal e := by
  unfold Kdf.checked at h
  split at h
  · cases h; simp [EncoderRefusal]
  · split at h <;> cases h <;> simp [EncoderRefusal]

theorem encode_not_encoderRefusal {rs : List RecordRef} (hw : ∀ r ∈ rs, r.slot.Wf)
    (hs : rs.Pairwise fun a b => a.tag < b.tag) {generation : UInt64} {master : Option Secret}
    {kdf : Kdf} {salt : Block saltLen} {key : Block keyLen} {nonce : Block nonceLen} {e : Error}
    (h : encode rs generation master kdf salt key nonce = .error e) : ¬ EncoderRefusal e := by
  have hlen {n m : ℕ} (h : lenMatches n m = .error e) : ¬ EncoderRefusal e := by
    unfold lenMatches at h
    split at h <;> cases h
    simp [EncoderRefusal]
  unfold encode at h
  split at h
  · cases h; simp [EncoderRefusal]
  split at h
  · cases h; simp [EncoderRefusal]
  rcases bind_eq_error.mp h with h | ⟨kdf', -, h⟩
  · exact checked_not_encoderRefusal h
  rcases bind_eq_error.mp h with h | ⟨⟨⟩, -, h⟩
  · exact hlen h
  rcases bind_eq_error.mp h with h | ⟨body, -, h⟩
  · rw [encodeRecords_eq_ok.mpr ⟨rfl, hw, hs, by simp⟩] at h
    cases h
  rcases bind_eq_error.mp h with h | ⟨⟨ciphertext, tag⟩, -, h⟩
  · unfold aeadSeal at h
    split at h <;> cases h
    simp [EncoderRefusal]
  rcases bind_eq_error.mp h with h | ⟨⟨⟩, -, h⟩
  · exact hlen h
  · cases h

omit [Crypto] in
theorem nextGeneration_not_encoderRefusal {g : UInt64} {max got : ℕ} {e : Error}
    (h : nextGeneration g max got = .error e) : ¬ EncoderRefusal e := by
  unfold nextGeneration at h
  split at h <;> cases h
  simp [EncoderRefusal]

theorem slotOf_not_encoderRefusal {slots : OrdMap Tag Slot} {tag : Tag} {e : Error}
    (h : slotOf slots tag = .error e) : ¬ EncoderRefusal e := by
  unfold slotOf at h
  split at h <;> cases h
  simp [EncoderRefusal]

theorem refuseOpen_not_encoderRefusal {slot : Slot} {e : Error} (h : refuseOpen slot = .error e) :
    ¬ EncoderRefusal e := by
  unfold refuseOpen at h
  split at h <;> cases h
  simp [EncoderRefusal]

theorem recomputedStreamId_not_encoderRefusal {master : Option Secret} {account : Account}
    {e : Error} (h : recomputedStreamId master account = .error e) : ¬ EncoderRefusal e := by
  unfold recomputedStreamId at h
  split at h
  · cases h
  split at h
  · dsimp only at h
    split at h
    · cases h; simp [EncoderRefusal]
    split at h <;> cases h
    simp [EncoderRefusal]
  · cases h

theorem next_not_encoderRefusal {p : Parsed} {op : Op} {e : Error} (h : p.next op = .error e) :
    ¬ EncoderRefusal e := by
  cases op with
  | adoptMaster master =>
    simp only [Parsed.next] at h
    split at h
    · cases h; simp [EncoderRefusal]
    rcases bind_eq_error.mp h with h | ⟨g, -, h⟩
    · exact nextGeneration_not_encoderRefusal h
    · cases h
  | add account =>
    simp only [Parsed.next] at h
    split at h
    · cases h; simp [EncoderRefusal]
    split at h
    · cases h; simp [EncoderRefusal]
    rcases bind_eq_error.mp h with h | ⟨incoming, -, h⟩
    · exact recomputedStreamId_not_encoderRefusal h
    split at h
    · cases h; simp [EncoderRefusal]
    rcases bind_eq_error.mp h with h | ⟨g, -, h⟩
    · exact nextGeneration_not_encoderRefusal h
    · cases h
  | persistAdvance tag digest figures =>
    rcases bind_eq_error.mp h with h | ⟨slot, -, h⟩
    · exact slotOf_not_encoderRefusal h
    rcases bind_eq_error.mp h with h | ⟨⟨⟩, -, h⟩
    · exact refuseOpen_not_encoderRefusal h
    rcases bind_eq_error.mp h with h | ⟨index, -, h⟩
    · unfold WotsIndex.advanced at h
      split at h <;> cases h
      simp [EncoderRefusal]
    rcases bind_eq_error.mp h with h | ⟨g, -, h⟩
    · exact nextGeneration_not_encoderRefusal h
    · cases h
  | persistAdvanceTo tag target =>
    rcases bind_eq_error.mp h with h | ⟨slot, -, h⟩
    · exact slotOf_not_encoderRefusal h
    rcases bind_eq_error.mp h with h | ⟨⟨⟩, -, h⟩
    · exact refuseOpen_not_encoderRefusal h
    split at h
    · cases h; simp [EncoderRefusal]
    rcases bind_eq_error.mp h with h | ⟨g, -, h⟩
    · exact nextGeneration_not_encoderRefusal h
    · cases h
  | persistSettled tag =>
    rcases bind_eq_error.mp h with h | ⟨slot, -, h⟩
    · exact slotOf_not_encoderRefusal h
    split at h
    · cases h; simp [EncoderRefusal]
    rcases bind_eq_error.mp h with h | ⟨g, -, h⟩
    · exact nextGeneration_not_encoderRefusal h
    · cases h

/-- A call on a handle of a well-formed store that ends with nothing touched was not refused by the
encoder for its records. -/
theorem call_not_encoderRefusal {ks : Keystore} (hwf : ∀ p, ks.memory = some p → p.Wf) {op : Op}
    {m : UnixMedium} {e : Error} (h : op.call ⟨ks, m⟩ = (.err e, ⟨ks, m⟩)) : ¬ EncoderRefusal e := by
  rcases hm : ks.memory with _ | p
  · obtain ⟨first, hfirst⟩ := poisoned_of_memory hm
    rw [call_poisoned (by exact hfirst)] at h
    cases h
    simp [EncoderRefusal]
  rw [call_eq (by exact hm)] at h
  rcases hnext : p.next op with e' | p'
  · rw [hnext] at h
    cases h
    exact next_not_encoderRefusal hnext
  rw [hnext] at h
  simp only [settle, install, Call.get_bind] at h
  rcases himage : imageOf ks.crypto p' with e' | image
  · rw [himage] at h
    cases h
    have htouched := (Parsed.step_of_next hnext).1.touched
    refine encode_not_encoderRefusal (fun r hr => ?_) (pairwise_recordsOf _) himage
    obtain ⟨⟨tag, slot⟩, hentry, rfl⟩ := List.mem_map.mp hr
    exact htouched.slots (hwf p hm) (OrdMap.mem_entries_iff.mp hentry)
  -- The image was sealed, so an error is the commit's, and it poisoned the handle.
  rw [himage, Call.check_ok, Call.pure_bind, commit_bind] at h
  have hlive := (memory_eq_some.mp hm).1
  rcases hsteps : Layout.steps image m with ⟨_ | e' | _, m'⟩ <;> rw [hsteps] at h
  · cases h
  · have hstate : State.poisoned e' = ks.state := congrArg (fun t => t.2.ks.state) h
    rw [hlive] at hstate
    cases hstate
  · cases h

/-- In every world a run reaches: the invariant holds of what the device and a live handle's memory
say; every step keeps every slot as `SlotStep` says and every run as `Evolved` says; and no call is
refused by the encoder for its records. -/
theorem invariant_run (hl : Crypto.Lawful) {password : Bytes} {w₀ w : World}
    (hclosed : w₀.handle = none)
    (hrun : World.Run password (fun _ e => e.isPowerCut = false) w₀ w) :
    (∀ p, w.state password = some p → Invariant p) ∧
    (∀ ks p, w.handle = some ks → ks.memory = some p → Invariant p) ∧
    (∀ e w', w.Step password e w' → e.isPowerCut = false → ∀ p tag slot,
      w.state password = some p → p.slots.get? tag = some slot →
        ∃ p' slot', w'.state password = some p' ∧ p'.slots.get? tag = some slot' ∧
          World.SlotStep e tag slot slot') ∧
    (∀ w', World.Run password (fun _ e => e.isPowerCut = false) w w' →
      World.Evolved (w.state password) (w'.state password)) ∧
    ∀ ks (op : Op) (m : UnixMedium) e, w.handle = some ks →
      op.call ⟨ks, m⟩ = (.err e, ⟨ks, m⟩) →
      ¬ EncoderRefusal e := by
  have hs := hrun.sound hl (World.sound_of_closed hclosed)
  have hwf (ks : Keystore) (p : Parsed) (hks : w.handle = some ks) (hm : ks.memory = some p) :
      p.Wf := World.wf_of_reading (hs ks p hks hm).2
  refine ⟨fun p hp => (World.wf_of_reading hp).invariant,
    fun ks p hks hm => (hwf ks p hks hm).invariant, ?_, fun w' => World.evolved_run hl hs,
    fun ks op m e hks => call_not_encoderRefusal fun p => hwf ks p hks⟩
  intro e w' hstep he p tag slot hp hslot
  exact (hstep.refines hl hs (Event.ne_powerCut he)).change.slot hp hslot

end

section

attribute [local instance] Crypto.plain

/-- The account's first position, reserved. -/
def reservedOnce : World := World.nowhere.execAll [] (founding ++ [reserving (.replicate 32 1) []])

def settlingWrite : Op := .persistSettled zeroAccount.tag

/-- The settling write, and the store opened again. -/
def settledOnce : World := (reservedOnce.exec [] (.write settlingWrite [])).2

def reopenedOnce : World := settledOnce.execAll [] [.close, opening]

/-- A reservation is settled as it was, and what is opened again has evolved from the store that made
it. -/
theorem invariant_run_settling : ∃ p q r slot block ks,
    reservedOnce.state [] = some p ∧ p.slots.get? zeroAccount.tag = some slot ∧ slot.pending = some block ∧
    Invariant p ∧ settledOnce.state [] = some q ∧
    q.slots.get? zeroAccount.tag = some ⟨slot.account, none, some block⟩ ∧ Invariant q ∧
    reopenedOnce.handle = some ks ∧ ks.memory = some r ∧ Invariant r ∧ World.Evolved (some p) (some r) := by
  have hreserved : World.Run [] (fun _ e => e.isPowerCut = false) World.nowhere reservedOnce :=
    World.run_execAll (by decide +kernel)
  have hopen : ((reservedOnce.state []).bind fun p =>
      (p.slots.get? zeroAccount.tag).bind (·.pending)).isSome := by decide +kernel
  obtain ⟨block, hopen⟩ := Option.isSome_iff_exists.mp hopen
  obtain ⟨p, hp, hopen⟩ := Option.bind_eq_some_iff.mp hopen
  obtain ⟨slot, hslot, hopen⟩ := Option.bind_eq_some_iff.mp hopen
  have hhandle : reservedOnce.handle.isSome := by decide +kernel
  obtain ⟨ks₀, hks₀⟩ := Option.isSome_iff_exists.mp hhandle
  obtain ⟨hinvariant, -, hkeeps, hevolves, -⟩ := invariant_run Crypto.plain_lawful rfl hreserved
  -- The settling write.
  have hstep : reservedOnce.Step [] (.write settlingWrite) settledOnce := World.exec_write hks₀
  obtain ⟨q, slot', hq, hslot', hmove⟩ := hkeeps _ _ hstep rfl p _ slot hp hslot
  have hclosed : ((settledOnce.state []).bind fun q => q.slots.get? zeroAccount.tag).map (·.pending) =
      some none := by decide +kernel
  rw [hq, Option.bind_some, hslot', Option.map_some, Option.some.injEq] at hclosed
  obtain ⟨-, rfl⟩ : _ ∧ slot' = ⟨slot.account, none, some block⟩ := by
    refine (hmove.pending block hopen).resolve_left fun hsame => ?_
    rw [hsame, hopen] at hclosed
    cases hclosed
  have hsettled := hreserved.tail ⟨_, rfl, hstep⟩
  -- The reopened store.
  have hagain : World.Run [] (fun _ e => e.isPowerCut = false) settledOnce reopenedOnce :=
    World.run_execAll (by decide +kernel)
  have hlive : (reopenedOnce.handle.bind (·.memory)).isSome := by decide +kernel
  obtain ⟨r, hr⟩ := Option.isSome_iff_exists.mp hlive
  obtain ⟨ks, hks, hm⟩ := Option.bind_eq_some_iff.mp hr
  have hreopened : World.Run [] (fun _ e => e.isPowerCut = false) World.nowhere reopenedOnce :=
    hsettled.trans hagain
  have hstate := (hreopened.sound Crypto.plain_lawful (World.sound_of_closed rfl) ks r hks hm).2
  have hend := hevolves reopenedOnce (.head ⟨_, rfl, hstep⟩ hagain)
  rw [hp, hstate] at hend
  exact ⟨p, q, r, slot, block, ks, hp, hslot, hopen, hinvariant p hp, hq, hslot',
    (invariant_run Crypto.plain_lawful rfl hsettled).1 q hq, hks, hm,
    (invariant_run Crypto.plain_lawful rfl hreopened).2.1 ks r hks hm, hend⟩

end

end MochimoWallet.Keystore
