import MochimoWallet.Recon.Classify

/-!
# Where a restored account stands

Restoring an account asks the node for its tag and walks key positions from 0 until one
has the address answered. The index is that position or there is none: no failure says
one (`restoreAccountIndexWith_cases`). Held to the same answer, an account
stored at the position is in sync (`reconcile_inSync`).
-/

namespace MochimoWallet

open Codec Keystore

structure RestoredAccount where
  tag : Tag
  index : WotsIndex
  address : Address
  balance : UInt64
  deriving DecidableEq

inductive RestoreFailure where
  | chainUnreachable (tag : Tag) (cause : Error)
  | tagUnresolved (tag : Tag)
  | noIndexReproducesTheAddress (tag : Tag) (address : Address) (scanned : UInt32)
  | cannotScan (tag : Tag) (cause : Error)
  | cannotStore (tag : Tag) (cause : Error)
  deriving DecidableEq

/-- The scan's own record of a stop. -/
def RestoreFailure.stoppedByCancel : RestoreFailure → Bool
  | cannotScan _ .cancelled => true
  | _ => false

section
variable [Crypto]

/-- Ask for the tag, and walk the scope's positions from 0 to the address answered. -/
def restoreAccountIndexWith (master : Secret) (accountIndex : UInt32) (scope : ScanScope)
    (cancel : Cancel) : Call Node RestoreFailure RestoredAccount := .of fun n =>
  let tag := (deriveAccount master accountIndex).tag
  match Node.resolveTag tag n with
  | (.err (.mesh 4 _), n) => (.err (.tagUnresolved tag), n)
  | (.err cause, n) => (.err (.chainUnreachable tag cause), n)
  | (.killed, n) => (.killed, n)
  | (.ok entry, n) =>
    match walk entry.address cancel (fun p => .ok (derivedAddressAt master accountIndex p))
      (scope.positions none) n with
    | (.found index, n) => (.ok ⟨tag, index, entry.address, entry.balance⟩, n)
    | (.notFound, n) => (.err (.noIndexReproducesTheAddress tag entry.address scope.ceiling), n)
    | (.failed _ cause, n) => (.err (.cannotScan tag cause), n)

/-- The first position below the ceiling whose key has the address. -/
structure Placed (master : Secret) (accountIndex : UInt32) (ceiling : UInt32) (address : Address)
    (position : WotsIndex) : Prop where
  below : position.pos < ceiling.toNat
  derives : derivedAddressAt master accountIndex position = address
  least : ∀ q : WotsIndex, q.pos < position.pos → derivedAddressAt master accountIndex q ≠ address

variable {master : Secret} {accountIndex : UInt32} {scope : ScanScope} {cancel : Cancel}
  {n n' : Node}

/-- What a walk from 0 finds is the first position that has the address. -/
theorem placed_of_walk {address : Address} {position : WotsIndex}
    (h : walk address cancel (fun p => .ok (derivedAddressAt master accountIndex p))
      (scope.positions none) n = (.found position, n')) :
    Placed master accountIndex scope.ceiling address position := by
  have hceiling : scope.ceiling.toNat < 2 ^ 32 := scope.ceiling.toNat_lt
  obtain ⟨before, after, hps, hat, hbefore⟩ := walk_found h
  rw [ScanScope.positions_none] at hps
  have hmem {q : WotsIndex} : q ∈ (List.range scope.ceiling.toNat).map
      (fun i => (⟨.ofNat i⟩ : WotsIndex)) ↔ q.pos < scope.ceiling.toNat := by
    rw [mem_map_positions fun j hj => (List.mem_range.mp hj).trans hceiling, List.mem_range]
  have hbelow : position.pos < scope.ceiling.toNat := by
    rw [← hmem, hps]
    exact List.mem_append_right _ List.mem_cons_self
  refine ⟨hbelow, Except.ok.inj hat, fun q hq => ?_⟩
  -- The list is in ascending order, so what is below the position stands before it.
  have hsorted : (before ++ position :: after).Pairwise fun a b => a.pos < b.pos := by
    rw [← hps, List.pairwise_map]
    refine List.pairwise_lt_range.imp_of_mem fun {i j} hi hj hij => ?_
    rw [WotsIndex.pos_ofNat ((List.mem_range.mp hi).trans hceiling),
      WotsIndex.pos_ofNat ((List.mem_range.mp hj).trans hceiling)]
    exact hij
  have hq' : q ∈ before ++ position :: after := by
    rw [← hps, hmem]
    exact hq.trans hbelow
  have hin : q ∈ before := by
    rcases List.mem_append.mp hq' with hin | hin
    · exact hin
    · rcases List.mem_cons.mp hin with rfl | hin
      · exact absurd hq (Nat.lt_irrefl _)
      · have hlt := List.rel_of_pairwise_cons (List.pairwise_append.mp hsorted).2.1 hin
        omega
  obtain ⟨a, ha, hne⟩ := hbefore q hin
  cases ha
  exact hne

/-- An index comes from an answer and is its first position; a failure says none. -/
theorem restoreAccountIndexWith_cases {r : Reply RestoreFailure RestoredAccount}
    (h : restoreAccountIndexWith master accountIndex scope cancel n = (r, n')) :
    (∃ failure, r = .err failure) ∨ ∃ entry position,
      n'.heard = ((deriveAccount master accountIndex).tag, entry) :: n.heard ∧
      tagOf entry.address = (deriveAccount master accountIndex).tag ∧
      Placed master accountIndex scope.ceiling entry.address position ∧
      r = .ok ⟨(deriveAccount master accountIndex).tag, position, entry.address, entry.balance⟩ := by
  unfold restoreAccountIndexWith at h
  rw [Call.of_apply] at h
  dsimp only at h
  rcases hr : Node.resolveTag (deriveAccount master accountIndex).tag n with ⟨r', m⟩
  rw [hr] at h
  rcases Node.resolveTag_cases hr with ⟨entry, rfl, htag, hheard⟩ | ⟨⟨e, rfl⟩, -⟩
  · dsimp only at h
    rcases hwalk : walk entry.address cancel
      (fun p => .ok (derivedAddressAt master accountIndex p)) (scope.positions none) m with ⟨w, m'⟩
    rw [hwalk] at h
    cases w with
    | found position =>
      cases h
      exact .inr ⟨entry, position, (walk_heard hwalk).trans hheard, htag, placed_of_walk hwalk, rfl⟩
    | notFound =>
      cases h
      exact .inl ⟨_, rfl⟩
    | failed stoppedAt cause =>
      cases h
      exact .inl ⟨_, rfl⟩
  · split at h
    · cases h
      exact .inl ⟨_, rfl⟩
    · cases h
      exact .inl ⟨_, rfl⟩
    · next heq => cases heq
    · next heq => cases heq

/-- There is one first position. -/
theorem Placed.unique {ceiling : UInt32} {address : Address} {position position' : WotsIndex}
    (h : Placed master accountIndex ceiling address position)
    (h' : Placed master accountIndex ceiling address position') : position = position' := by
  refine WotsIndex.ext_pos ?_
  have hle : ¬ position'.pos < position.pos := fun hlt => h.least position' hlt h'.derives
  have hge : ¬ position.pos < position'.pos := fun hlt => h'.least position hlt h.derives
  omega

/-- A scan that nobody stops finds the answer's first position in the scope, if it has one. -/
theorem restoreAccountIndexWith_ok {r : Reply RestoreFailure RestoredAccount}
    {found : RestoredAccount}
    (h : restoreAccountIndexWith master accountIndex scope .never n = (r, n')) :
    r = .ok found ↔ ∃ entry entries position, n.entries = .ok entry :: entries ∧
      tagOf entry.address = (deriveAccount master accountIndex).tag ∧
      Placed master accountIndex scope.ceiling entry.address position ∧
      found = ⟨(deriveAccount master accountIndex).tag, position, entry.address, entry.balance⟩ := by
  unfold restoreAccountIndexWith at h
  rw [Call.of_apply] at h
  dsimp only at h
  by_cases hanswer : ∃ entry entries, n.entries = .ok entry :: entries ∧
      tagOf entry.address = (deriveAccount master accountIndex).tag
  · obtain ⟨entry, entries, hentries, htag⟩ := hanswer
    rw [Node.resolveTag_answered hentries htag] at h
    dsimp only at h
    rcases hwalk : walk entry.address .never
      (fun p => .ok (derivedAddressAt master accountIndex p)) (scope.positions none)
      { n with entries, heard := ((deriveAccount master accountIndex).tag, entry) :: n.heard } with
      ⟨w, m⟩
    have hcompares := walk_compares (fun _ => rfl) hwalk
    rw [hwalk] at h
    -- No other entry is the answer, and a position of it is the one the walk found.
    have hnone (hno : ∀ position, ¬ Placed master accountIndex scope.ceiling entry.address position)
        (hr : ∀ found, r ≠ .ok found) : r = .ok found ↔ ∃ entry entries position,
          n.entries = .ok entry :: entries ∧
          tagOf entry.address = (deriveAccount master accountIndex).tag ∧
          Placed master accountIndex scope.ceiling entry.address position ∧
          found = ⟨(deriveAccount master accountIndex).tag, position, entry.address,
            entry.balance⟩ := by
      refine iff_of_false (hr found) ?_
      rintro ⟨entry', entries', position, hentries', -, hplaced, -⟩
      rw [hentries] at hentries'
      cases hentries'
      exact hno position hplaced
    have hmem {position : WotsIndex}
        (hplaced : Placed master accountIndex scope.ceiling entry.address position) :
        position ∈ scope.positions none := by
      have hceiling : scope.ceiling.toNat < 2 ^ 32 := scope.ceiling.toNat_lt
      rw [ScanScope.positions_none,
        mem_map_positions fun j hj => (List.mem_range.mp hj).trans hceiling, List.mem_range]
      exact hplaced.below
    cases w with
    | found position =>
      cases h
      have hplaced := placed_of_walk hwalk
      constructor
      · rintro ⟨⟩
        exact ⟨entry, entries, position, hentries, htag, hplaced, rfl⟩
      · rintro ⟨entry', entries', position', hentries', -, hplaced', rfl⟩
        rw [hentries] at hentries'
        cases hentries'
        rw [hplaced.unique hplaced']
    | notFound =>
      cases h
      exact hnone (fun position hplaced => hcompares position (hmem hplaced) hplaced.derives)
        (by simp)
    | failed stoppedAt cause => exact absurd (.inl rfl) hcompares.2
  · refine iff_of_false ?_ ?_
    · rintro rfl
      rcases hr : Node.resolveTag (deriveAccount master accountIndex).tag n with ⟨r', m⟩
      rw [hr] at h
      rcases Node.resolveTag_cases hr with ⟨entry, rfl, htag, -⟩ | ⟨⟨e, rfl⟩, -⟩
      · obtain ⟨entries, hentries⟩ := Node.resolveTag_entries hr
        exact hanswer ⟨entry, entries, hentries, htag⟩
      · split at h
        · cases h
        · cases h
        · next heq => cases heq
        · next heq => cases heq
    · rintro ⟨entry, entries, -, hentries, htag, -⟩
      exact hanswer ⟨entry, entries, hentries, htag⟩

/-- An account the node answers the stored address of is in sync. -/
theorem reconcile_inSync {ks : Keystore} {p : Parsed} {tag : Tag} {access : KeyAccess} {slot : Slot}
    {entry : LedgerEntry} {entries : List (Except Error LedgerEntry)} (hm : ks.memory = some p)
    (hslot : p.slots.get? tag = some slot) (hopen : slot.pending = none)
    (haddress : ks.addressAt tag slot.account.wotsIndex access = .ok entry.address)
    (hentries : n.entries = .ok entry :: entries) (htag : tagOf entry.address = tag) :
    ∃ m, reconcileAccountWith ks tag access scope cancel n =
      (.ok (.inSync slot.account.wotsIndex entry.address entry.balance), m) := by
  rw [reconcile_heard hm hslot hentries htag, hopen]
  dsimp only
  unfold reconcileClosed
  rw [haddress, orCannot, Call.check_ok, Call.pure_bind, Call.ite_apply, if_pos rfl]
  exact ⟨_, rfl⟩

end

end MochimoWallet
