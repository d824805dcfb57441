import Mathlib.Data.List.Induction
import MochimoWallet.Keystore.KeyReuse

/-!
# A store's master and its derived accounts

Two writers put the two halves of a relation into a store: `adoptMaster` the seed, and
`add` the accounts derived from one. `add` holds a new account to the seed it finds;
`adoptMaster` holds its seed to nothing. So a store's master derives its derived
accounts exactly as long as every seed was adopted into a store whose accounts it
reproduces (`derives_iff_adopted`).
-/

namespace MochimoWallet.Keystore

open Codec

section
variable [Crypto]

/-- Each derived record has the tag and the stream that its number has under the master. -/
def Reproduces (master : Secret) (p : Parsed) : Prop :=
  ∀ tag slot, p.slots.get? tag = some slot → Origin master slot.account

/-- A store's own master reproduces its derived records, and is never refused for one of them as not
reproducing it. -/
structure Derives (p : Parsed) : Prop where
  reproduces : ∀ master, p.master = some master → Reproduces master p
  keys : ∀ master tag slot accountIndex stream position e, p.master = some master →
    p.slots.get? tag = some slot → slot.account.key = .derived accountIndex stream →
    keyAt p.slots slot position (.master master) = .error e →
      e ≠ .derivedTagNotReproduced accountIndex ∧ e ≠ .streamIdNotReproduced

/-- A reproduced record is only ever refused for sharing its stream. -/
theorem keyAt_of_origin {slots : OrdMap Tag Slot} {slot : Slot} {accountIndex : UInt32}
    {stream : StreamId} {master : Secret} (h : Origin master slot.account)
    (hkey : slot.account.key = .derived accountIndex stream) {position : WotsIndex} {e : Error}
    (hat : keyAt slots slot position (.master master) = .error e) :
    e = .keyStreamSharedWithImportedAccount := by
  obtain ⟨htag, hstream⟩ := h accountIndex stream hkey
  simp only [keyAt, hkey, htag, hstream, ne_eq, not_true_eq_false, if_false] at hat
  split at hat
  · cases hat; rfl
  · split at hat <;> cases hat

theorem derives_iff {p : Parsed} :
    Derives p ↔ ∀ master, p.master = some master → Reproduces master p := by
  refine ⟨Derives.reproduces, fun h => ⟨h, ?_⟩⟩
  intro master tag slot accountIndex stream position e hm hslot hkey hat
  obtain rfl := keyAt_of_origin (h master hm tag slot hslot) hkey hat
  exact ⟨by simp, by simp⟩

/-! ## One write -/

/-- An account that a store with a master takes is one that its master reproduces. -/
theorem origin_of_recomputed {master : Secret} {account : Account} {stream : StreamId}
    (h : recomputedStreamId (some master) account = .ok stream) : Origin master account := by
  intro accountIndex stored hkey
  simp only [recomputedStreamId, hkey] at h
  split at h
  · cases h
  next htag =>
  split at h
  · cases h
  next hstream => exact ⟨(not_not.mp htag).symm, (not_not.mp hstream).symm⟩

/-- Every write but an adoption keeps the relation. -/
theorem Derives.step {p p' : Parsed} {op : Op} (hp : Derives p) (h : p.Step p' op)
    (hadopt : ∀ master, op = .adoptMaster master → Reproduces master p) : Derives p' := by
  rw [derives_iff] at hp ⊢
  intro master hmaster tag slot' hslot' accountIndex stream hkey
  rcases slot_of_step h hslot' with ⟨account, rfl, -, rfl, -⟩ | ⟨slot, hslot, hsame, htag⟩
  · cases h with
    | add _ _ hstream _ _ hm =>
      rw [← hm, hmaster] at hstream
      exact origin_of_recomputed hstream accountIndex stream hkey
  have horigin : Origin master slot.account := by
    cases h with
    | adoptMaster hnone hslots hm =>
      rw [hm] at hmaster
      cases hmaster
      exact hadopt master rfl tag slot hslot
    | add _ _ _ _ _ hm | persistAdvance _ _ _ _ hm | persistAdvanceTo _ _ _ _ hm
    | persistSettled _ _ _ hm => exact hp master (hm ▸ hmaster) tag slot hslot
  rw [htag]
  exact horigin accountIndex stream (hsame ▸ hkey)

/-- A store that a master was adopted into is the one it was, so the master reproduced it. -/
theorem Derives.adopted {p p' : Parsed} {master : Secret} (hp : Derives p')
    (h : p.Step p' (.adoptMaster master)) : Reproduces master p := by
  cases h with
  | adoptMaster hnone hslots hm =>
    intro tag slot hslot
    exact hp.reproduces master hm tag slot (hslots ▸ hslot)

/-! ## Calls that returned -/

variable {D : Type} [Layout D]

/-- The calls one after the other, as long as each returns. -/
def callAll : Opened D → List Op → Option (Opened D)
  | s, [] => some s
  | s, op :: ops =>
    match op.call s with
    | (.ok _, t) => callAll t ops
    | _ => none

theorem callAll_append (s : Opened D) (ops ops' : List Op) :
    callAll s (ops ++ ops') = (callAll s ops).bind (callAll · ops') := by
  induction ops generalizing s with
  | nil => rfl
  | cons op ops ih =>
    simp only [List.cons_append, callAll]
    split
    · exact ih _
    · rfl

/-- A call that returned took the handle's memory through its transition. -/
theorem callAll_concat {s t : Opened D} {ops : List Op} {op : Op}
    (h : callAll s (ops ++ [op]) = some t) :
    ∃ u p p', callAll s ops = some u ∧ u.ks.memory = some p ∧ p.Step p' op ∧
      t.ks.memory = some p' := by
  rw [callAll_append] at h
  obtain ⟨u, hu, h⟩ := Option.bind_eq_some_iff.mp h
  simp only [callAll] at h
  split at h
  · next r t' hcall =>
    cases h
    rcases hm : u.ks.memory with _ | p
    · obtain ⟨first, hfirst⟩ := poisoned_of_memory hm
      rw [call_poisoned hfirst op] at hcall
      cases hcall
    cases call_end hm hcall with
    | @done p' image hnext himage hsteps hks =>
      exact ⟨u, p, p', hu, hm, (Parsed.step_of_next hnext).1, by rw [hks]; rfl⟩
  · cases h

/-- In every run of calls that returned, from a store as `create` leaves it: the store's master
derives its derived accounts in every state passed through, exactly if each adopted seed reproduced
the derived records that the store held then. -/
theorem derives_iff_adopted {s t : Opened D} {ops : List Op} (hcreated : s.ks.memory = some emptyStore)
    (hrun : callAll s ops = some t) :
    (∀ made u p, made <+: ops → callAll s made = some u → u.ks.memory = some p → Derives p) ↔
      ∀ made master u p, made ++ [.adoptMaster master] <+: ops → callAll s made = some u →
        u.ks.memory = some p → Reproduces master p := by
  constructor
  · intro h made master u p hmade hu hm
    obtain ⟨rest, hops⟩ := hmade
    rw [← hops, callAll_append] at hrun
    obtain ⟨v, hv, -⟩ := Option.bind_eq_some_iff.mp hrun
    obtain ⟨u', q, q', hu', hq, hstep, hq'⟩ := callAll_concat hv
    rw [hu] at hu'
    cases hu'
    rw [hm] at hq
    cases hq
    exact (h _ v q' ⟨rest, hops⟩ hv hq').adopted hstep
  · -- What holds of the empty store is kept by each of the calls.
    intro hadopt made
    induction made using List.reverseRecOn with
    | nil =>
      intro u p _ hu hm
      cases hu
      rw [hcreated] at hm
      cases hm
      exact derives_iff.mpr fun _ hmaster => by cases hmaster
    | append_singleton made op ih =>
      intro u p hmade hu hm
      obtain ⟨v, q, q', hv, hq, hstep, hq'⟩ := callAll_concat hu
      rw [hm] at hq'
      cases hq'
      refine (ih v q ((List.prefix_append ..).trans hmade) hv hq).step hstep fun master hop => ?_
      subst hop
      exact hadopt made master v q hmade hv hq

end

section

attribute [local instance] Crypto.copying

/-- A store as `create` leaves it in an empty directory, if it returns. -/
def created : Option (Opened UnixMedium) :=
  match createWith .good ⟨[], .zero saltLen, .zero nonceSeedLen, ⟨8, 1, 1⟩⟩
    ⟨⟨none, none, none⟩, [], []⟩ with
  | (.ok ks, m) => some ⟨ks, m⟩
  | _ => none

theorem memory_of_created {s : Opened UnixMedium} (h : created = some s) :
    s.ks.memory = some emptyStore := by
  unfold created at h
  split at h
  · next ks m hcreate =>
    cases h
    rcases createWith_cases hcreate with ⟨⟨e, hr⟩ | hr, -⟩ | ⟨_, _, _, _, _, ⟨_, hr, hm, -⟩ | ⟨⟨e, hr⟩ | hr, -⟩⟩
    · cases hr
    · cases hr
    · cases hr
      exact hm
    · cases hr
    · cases hr
  · cases h

/-- The master adopted, and an account of it added. -/
theorem derives_iff_adopted_sevens :
    ∃ s t, created = some s ∧
      callAll s [.adoptMaster sevens, .add (.derive sevens 0)] = some t ∧
      ((∀ made u p, made <+: [.adoptMaster sevens, .add (.derive sevens 0)] →
          callAll s made = some u → u.ks.memory = some p → Derives p) ↔
        ∀ made master u p,
          made ++ [.adoptMaster master] <+: [.adoptMaster sevens, .add (.derive sevens 0)] →
            callAll s made = some u → u.ks.memory = some p → Reproduces master p) := by
  have hrun : (created.bind (callAll · [.adoptMaster sevens, .add (.derive sevens 0)])).isSome := by
    decide +kernel
  obtain ⟨t, ht⟩ := Option.isSome_iff_exists.mp hrun
  obtain ⟨s, hs, ht⟩ := Option.bind_eq_some_iff.mp ht
  exact ⟨s, t, hs, ht, derives_iff_adopted (memory_of_created hs) ht⟩

/-- A master of no account of the other tests. -/
def eights : Secret := .replicate seedLen 8

/-- An account added while there is no master, and another master adopted: both calls return, and
what the account is asked for under its store's own master is refused. -/
theorem adopted_over_another :
    ∃ s t p slot, created = some s ∧
      callAll s [.add (.derive eights 0), .adoptMaster sevens] = some t ∧
      t.ks.memory = some p ∧ p.master = some sevens ∧
      p.slots.get? (Account.derive eights 0).tag = some slot ∧
      slot.account.key = (Account.derive eights 0).key ∧
      keyAt p.slots slot .zero (.master sevens) = .error (.derivedTagNotReproduced 0) ∧
      ¬ Derives p := by
  have hrun : ((created.bind (callAll · [.add (.derive eights 0), .adoptMaster sevens])).bind
      (·.ks.memory)).map (fun p => (p.master, (p.slots.get? (Account.derive eights 0).tag).map
        fun slot => (slot.account.tag, slot.account.key))) =
      some (some sevens, some ((Account.derive eights 0).tag, (Account.derive eights 0).key)) := by
    decide +kernel
  obtain ⟨p, hp, hparts⟩ := Option.map_eq_some_iff.mp hrun
  obtain ⟨t, ht, hm⟩ := Option.bind_eq_some_iff.mp hp
  obtain ⟨s, hs, ht⟩ := Option.bind_eq_some_iff.mp ht
  obtain ⟨hmaster, hslot⟩ := Prod.mk.inj hparts
  obtain ⟨slot, hslot, hslotParts⟩ := Option.map_eq_some_iff.mp hslot
  obtain ⟨htag, hkey⟩ := Prod.mk.inj hslotParts
  have hne : (deriveAccount sevens 0).tag ≠ slot.account.tag := by
    rw [htag]
    decide +kernel
  have hat : keyAt p.slots slot .zero (.master sevens) = .error (.derivedTagNotReproduced 0) := by
    simp only [keyAt, hkey, Account.derive, hne, ne_eq, not_false_eq_true, if_true]
  refine ⟨s, t, p, slot, hs, ht, hm, hmaster, hslot, hkey, hat, fun h => ?_⟩
  exact (h.keys sevens _ slot 0 _ .zero _ hmaster hslot hkey hat).1 rfl

end

end MochimoWallet.Keystore
