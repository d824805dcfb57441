import MochimoWallet.Keystore.Numbering
import MochimoWallet.Recon

/-!
# What a reconciliation says

A reconciliation that was answered and not stopped says exactly how the address it
heard stands to the store: at the stored index, at the reserved one, at another
position of the scope, or at none. `mem_positions` is the scope as a set of positions,
`walk_compares` that a walk compares each of them, and `locate_exact` what a
divergence says it found.
-/

namespace MochimoWallet

open Codec Keystore

/-! ## The positions of a scope -/

/-- The position is in the window around the stored one, or below the ceiling; the last word is
neither. -/
def ScanScope.Covers (scope : ScanScope) (stored i : WotsIndex) : Prop :=
  (∃ w, scope.window = some w ∧ stored.pos - w.toNat ≤ i.pos ∧ i.pos ≤ stored.pos + w.toNat ∧
    i.pos ≠ u32Max) ∨ i.pos < scope.ceiling.toNat

theorem WotsIndex.pos_ofNat {i : ℕ} (h : i < 2 ^ 32) : (⟨.ofNat i⟩ : WotsIndex).pos = i := by
  rw [WotsIndex.pos, UInt32.toNat_ofNat', Nat.mod_eq_of_lt h]

theorem WotsIndex.ofNat_pos (i : WotsIndex) : (⟨.ofNat i.pos⟩ : WotsIndex) = i :=
  WotsIndex.ext_pos (WotsIndex.pos_ofNat i.pos_lt)

/-- A list of numbers below the last word, as positions. -/
theorem mem_map_positions {l : List ℕ} (hl : ∀ j ∈ l, j < 2 ^ 32) {i : WotsIndex} :
    i ∈ l.map (fun j => (⟨.ofNat j⟩ : WotsIndex)) ↔ i.pos ∈ l := by
  rw [List.mem_map]
  constructor
  · rintro ⟨j, hj, rfl⟩
    rwa [WotsIndex.pos_ofNat (hl j hj)]
  · intro h
    exact ⟨i.pos, h, i.ofNat_pos⟩

/-- A walk of a scope around a stored position visits the positions it covers. -/
theorem ScanScope.mem_positions {scope : ScanScope} {stored i : WotsIndex} :
    i ∈ scope.positions (some stored) ↔ scope.Covers stored i := by
  have hceiling : scope.ceiling.toNat < 2 ^ 32 := scope.ceiling.toNat_lt
  have hi := i.pos_lt
  have hmax : u32Max = 2 ^ 32 - 1 := rfl
  unfold positions windowEdges Covers
  rcases scope.window with _ | w
  · rw [mem_map_positions (by simp; omega)]
    simp
  · dsimp only
    rw [mem_map_positions (by simp; omega)]
    simp [List.mem_range'_1]
    omega

/-- A walk from no stored position visits the positions below the ceiling, in order. -/
theorem ScanScope.positions_none (scope : ScanScope) :
    scope.positions none = (List.range scope.ceiling.toNat).map fun i => ⟨.ofNat i⟩ := by
  unfold positions windowEdges
  rcases scope.window with _ | w <;> simp

/-! ## What a walk compares -/

/-- The caller does not ask to stop: it cannot, or it says no every time. -/
def Node.Goes (cancel : Cancel) (n : Node) : Prop := cancel = .never ∨ ∀ stop ∈ n.stops, stop = false

theorem Node.Goes.stop {cancel : Cancel} {n m : Node} {b : Bool} (h : n.Goes cancel)
    (hstop : n.stop cancel = (b, m)) : b = false ∧ m.Goes cancel := by
  cases cancel with
  | never =>
    cases hstop
    exact ⟨rfl, .inl rfl⟩
  | when =>
    rcases h with h | h
    · cases h
    unfold Node.stop at hstop
    split at hstop
    · next heq => cases heq
    · cases hstop
      exact ⟨rfl, .inr h⟩
    · next c stops heq =>
      cases hstop
      rw [heq] at h
      exact ⟨h b List.mem_cons_self, .inr fun stop hmem => h stop (List.mem_cons_of_mem _ hmem)⟩

/-- What a walk over positions that derive has compared: none but the caller stops it early. -/
def Walk.Compares (at' : WotsIndex → Address) (target : Address) (ps : List WotsIndex) (goes : Prop) :
    Walk → Prop
  | .found p => p ∈ ps ∧ at' p = target
  | .notFound => ∀ p ∈ ps, at' p ≠ target
  | .failed _ cause => cause = .cancelled ∧ ¬ goes

theorem walk_compares {at' : WotsIndex → Address} {addressAt : WotsIndex → Except Error Address}
    {target : Address} {cancel : Cancel} {ps : List WotsIndex} {n n' : Node} {w : Walk}
    (hat : ∀ p, addressAt p = .ok (at' p)) (h : walk target cancel addressAt ps n = (w, n')) :
    w.Compares at' target ps (n.Goes cancel) := by
  induction ps generalizing n with
  | nil =>
    cases h
    exact fun _ hmem => absurd hmem List.not_mem_nil
  | cons p ps ih =>
    unfold walk at h
    split at h
    · next m hstop =>
      cases h
      exact ⟨rfl, fun hgoes => by cases (hgoes.stop hstop).1⟩
    next m hstop =>
    rw [hat p] at h
    dsimp only at h
    split at h
    · next heq =>
      cases h
      exact ⟨List.mem_cons_self, heq⟩
    next hne =>
    have hrest := ih h
    cases w with
    | found q => exact ⟨List.mem_cons_of_mem _ hrest.1, hrest.2⟩
    | notFound =>
      intro q hq
      rcases List.mem_cons.mp hq with rfl | hq
      · exact hne
      · exact hrest q hq
    | failed stoppedAt cause => exact ⟨hrest.1, fun hgoes => hrest.2 (hgoes.stop hstop).2⟩

/-! ## Where a divergence says the chain is -/

/-- The position said is one of the scope's that has the address, at the distance said from the
stored one; or there is none, unless the caller stopped the search. -/
def ChainPosition.Exact (at' : WotsIndex → Address) (scope : ScanScope) (stored : WotsIndex)
    (chain : Address) (goes : Prop) : ChainPosition → Prop
  | .ahead i gap => scope.Covers stored i ∧ at' i = chain ∧ 1 ≤ gap.toNat ∧
    i.pos = stored.pos + gap.toNat
  | .behind i gap => scope.Covers stored i ∧ at' i = chain ∧ 1 ≤ gap.toNat ∧
    i.pos + gap.toNat = stored.pos
  | .unlocated stored' scope' none => stored' = stored ∧ scope' = scope ∧
    ∀ i, scope.Covers stored i → at' i ≠ chain
  | .unlocated stored' scope' (some stopped) => stored' = stored ∧ scope' = scope ∧
    stopped.by' = .cancelled ∧ ¬ goes

/-- Where no two positions have one address, an unstopped search says which position of the scope
has it. -/
theorem ChainPosition.Exact.located {at' : WotsIndex → Address} {scope : ScanScope}
    {stored i : WotsIndex} {goes : Prop} {position : ChainPosition}
    (h : position.Exact at' scope stored (at' i) goes) (hinj : Function.Injective at') (hgoes : goes)
    (hcovers : scope.Covers stored i) :
    (∃ gap, position = .behind i gap ∧ i.pos + gap.toNat = stored.pos) ∨
      ∃ gap, position = .ahead i gap ∧ i.pos = stored.pos + gap.toNat := by
  cases position with
  | ahead j gap =>
    obtain ⟨-, hat, -, hgap⟩ := h
    cases hinj hat
    exact .inr ⟨gap, rfl, hgap⟩
  | behind j gap =>
    obtain ⟨-, hat, -, hgap⟩ := h
    cases hinj hat
    exact .inl ⟨gap, rfl, hgap⟩
  | unlocated stored' scope' stopped =>
    rcases stopped with _ | stopped
    · exact absurd rfl (h.2.2 i hcovers)
    · exact absurd hgoes h.2.2.2

theorem locate_exact {at' : WotsIndex → Address} {addressAt : WotsIndex → Except Error Address}
    {chain : Address} {stored : WotsIndex} {scope : ScanScope} {cancel : Cancel} {n n' : Node}
    {found : ChainPosition} (hat : ∀ q, addressAt q = .ok (at' q)) (hne : at' stored ≠ chain)
    (h : locate chain stored scope cancel addressAt n = (found, n')) :
    found.Exact at' scope stored chain (n.Goes cancel) := by
  unfold locate at h
  rcases hwalk : walk chain cancel addressAt (scope.positions (some stored)) n with ⟨w, m⟩
  have hcompares := walk_compares hat hwalk
  rw [hwalk] at h
  cases w with
  | found i =>
    obtain ⟨hi, hchain⟩ := hcompares
    have hcovers := ScanScope.mem_positions.mp hi
    have hdiffer : i.pos ≠ stored.pos := fun he => hne (WotsIndex.ext_pos he ▸ hchain)
    dsimp only at h
    split at h
    · next hlt =>
      cases h
      have hgap : (i.raw - stored.raw).toNat = i.pos - stored.pos :=
        UInt32.toNat_sub_of_le i.raw stored.raw (Nat.le_of_lt hlt)
      exact ⟨hcovers, hchain, by omega, by omega⟩
    · next hge =>
      cases h
      have hle : i.pos ≤ stored.pos := Nat.le_of_not_lt hge
      have hgap : (stored.raw - i.raw).toNat = stored.pos - i.pos :=
        UInt32.toNat_sub_of_le stored.raw i.raw hle
      exact ⟨hcovers, hchain, by omega, by omega⟩
  | notFound =>
    cases h
    exact ⟨rfl, rfl, fun i hi => hcompares i (ScanScope.mem_positions.mpr hi)⟩
  | failed stoppedAt cause =>
    cases h
    obtain ⟨rfl, hstopped⟩ := hcompares
    exact ⟨rfl, rfl, rfl, hstopped⟩

/-! ## What a reconciliation says -/

/-- The retained settled block is the report's exactly when the chain is back at its position. -/
def RevertedExactly (settled : Option Pending) (found : ChainPosition) (reverted : Option Pending) :
    Prop :=
  ∀ block, reverted = some block ↔ settled = some block ∧ ∃ gap, found = .behind block.spentIndex gap

theorem revertedExactly (settled : Option Pending) (found : ChainPosition) :
    RevertedExactly settled found (match found, settled with
      | .behind index _, some s => if s.spentIndex = index then some s else none
      | _, _ => none) := by
  intro block
  cases found with
  | ahead index gap => simp
  | unlocated stored scope stopped => simp
  | behind index gap =>
    rcases settled with _ | s
    · simp
    · dsimp only
      split
      · next heq =>
        subst heq
        simp only [Option.some.injEq, ChainPosition.behind.injEq]
        constructor
        · rintro rfl
          exact ⟨rfl, gap, rfl, rfl⟩
        · exact And.left
      · next hne =>
        refine iff_of_false (by simp) ?_
        rintro ⟨hs, gap', hfound⟩
        cases hs
        cases hfound
        exact hne rfl

section
variable [Crypto] {ks : Keystore} {p : Parsed} {tag : Tag} {access : KeyAccess} {scope : ScanScope}
  {cancel : Cancel} {n n' : Node} {slot : Slot} {entry : LedgerEntry}
  {entries : List (Except Error LedgerEntry)} {at' : WotsIndex → Address}

/-- A reconciliation that hears an entry goes on from it. -/
theorem reconcile_heard (hm : ks.memory = some p) (hslot : p.slots.get? tag = some slot)
    (hentries : n.entries = .ok entry :: entries) (htag : tagOf entry.address = tag) :
    reconcileAccountWith ks tag access scope cancel n =
      (match slot.pending with
        | none => reconcileClosed ks tag access scope cancel
          ⟨tag, slot.account.kind, slot.account.wotsIndex, slot.pending, slot.settled⟩ entry
          slot.account.key.stream
        | some pending => reconcileOpen ks tag access scope cancel
          ⟨tag, slot.account.kind, slot.account.wotsIndex, slot.pending, slot.settled⟩ entry
          slot.account.key.stream pending)
        { n with entries, heard := (tag, entry) :: n.heard } := by
  have hview : viewOf ks tag = .ok
      ⟨tag, slot.account.kind, slot.account.wotsIndex, slot.pending, slot.settled⟩ :=
    (viewOf_eq_ok hm).mpr ⟨slot, hslot, rfl⟩
  have hentry : entryOf tag
      ⟨tag, slot.account.kind, slot.account.wotsIndex, slot.pending, slot.settled⟩ n =
      (.ok entry, { n with entries, heard := (tag, entry) :: n.heard }) := by
    rw [entryOf, Node.resolveTag_answered hentries htag]
  have hstream : ks.streamId tag = .ok slot.account.key.stream := by
    rw [Keystore.streamId, live_of_memory hm, ok_bind]
    simp only [slotOf_eq_ok.mpr hslot, ok_bind, storedStreamId]
  unfold reconcileAccountWith
  rw [hview, Call.check_ok, Call.pure_bind, Call.bind_of_ok hentry, hstream]
  rfl

theorem reconcileClosed_exact {view : AccountView} {stream : StreamId}
    {found : Except Divergence AccountStatus} (hat : ∀ q, ks.addressAt tag q access = .ok (at' q))
    (h : reconcileClosed ks tag access scope cancel view entry stream n = (.ofExcept found, n')) :
    (found = .ok (.inSync view.wotsIndex entry.address entry.balance) ↔
        at' view.wotsIndex = entry.address) ∧
      (at' view.wotsIndex ≠ entry.address → ∃ position reverted,
        found = .error (.indexMismatch tag view.wotsIndex (at' view.wotsIndex) entry.address
          entry.balance stream position reverted) ∧
        position.Exact at' scope view.wotsIndex entry.address (n.Goes cancel) ∧
        RevertedExactly view.settled position reverted) := by
  unfold reconcileClosed at h
  rw [hat, orCannot, Call.check_ok, Call.pure_bind, Call.ite_apply] at h
  by_cases heq : entry.address = at' view.wotsIndex
  · rw [if_pos heq] at h
    rcases found with d | status <;> cases h
    exact ⟨iff_of_true rfl heq.symm, fun hne => absurd heq.symm hne⟩
  · rw [if_neg heq, Call.of_apply] at h
    rcases hlocate : locate entry.address view.wotsIndex scope cancel
      (fun q => ks.addressAt tag q access) n with ⟨position, m⟩
    rw [hlocate] at h
    rcases found with d | status <;> cases h
    exact ⟨iff_of_false (by simp) (Ne.symm heq), fun hne => ⟨position, _, rfl,
      locate_exact hat hne hlocate, revertedExactly view.settled position⟩⟩

theorem reconcileOpen_exact {view : AccountView} {stream : StreamId} {pending : Pending}
    {found : Except Divergence AccountStatus} (hat : ∀ q, ks.addressAt tag q access = .ok (at' q))
    (h : reconcileOpen ks tag access scope cancel view entry stream pending n =
      (.ofExcept found, n')) :
    ((∃ reservation, found = .ok (.spendOutstanding pending.spentIndex entry.balance reservation)) ↔
        at' pending.spentIndex = entry.address) ∧
      (at' pending.spentIndex ≠ entry.address →
        (found = .ok (.spendLanded pending.spentIndex view.wotsIndex entry.balance) ↔
          at' view.wotsIndex = entry.address) ∧
        (at' view.wotsIndex ≠ entry.address → ∃ position,
          found = .error (.reservationUnexplained tag pending.spentIndex entry.address entry.balance
            stream position) ∧
          position.Exact at' scope view.wotsIndex entry.address (n.Goes cancel))) := by
  unfold reconcileOpen at h
  rw [hat, orCannot, Call.check_ok, Call.pure_bind, Call.ite_apply] at h
  by_cases heq : entry.address = at' pending.spentIndex
  · rw [if_pos heq] at h
    refine ⟨iff_of_true ?_ heq.symm, fun hne => absurd heq.symm hne⟩
    rcases hfigures : pending.figures with _ | figures <;> rw [hfigures] at h <;>
      rcases found with d | status <;> cases h <;> exact ⟨_, rfl⟩
  rw [if_neg heq, hat, orCannot, Call.check_ok, Call.pure_bind, Call.ite_apply] at h
  by_cases hchange : entry.address = at' view.wotsIndex
  · rw [if_pos hchange] at h
    rcases found with d | status <;> cases h
    exact ⟨iff_of_false (by simp) (Ne.symm heq), fun _ =>
      ⟨iff_of_true rfl hchange.symm, fun hne => absurd hchange.symm hne⟩⟩
  · rw [if_neg hchange, Call.of_apply] at h
    rcases hlocate : locate entry.address view.wotsIndex scope cancel
      (fun q => ks.addressAt tag q access) n with ⟨position, m⟩
    rw [hlocate] at h
    rcases found with d | status <;> cases h
    exact ⟨iff_of_false (by simp) (Ne.symm heq), fun _ =>
      ⟨iff_of_false (by simp) (Ne.symm hchange), fun hne =>
        ⟨position, rfl, locate_exact hat hne hlocate⟩⟩⟩

/-- A reconciliation always returns. -/
theorem reconcile_returns : ∃ found m,
    reconcileAccountWith ks tag access scope cancel n = (.ofExcept found, m) := by
  rcases h : reconcileAccountWith ks tag access scope cancel n with ⟨status | d | _, m⟩
  · exact ⟨.ok status, m, rfl⟩
  · exact ⟨.error d, m, rfl⟩
  · exact absurd rfl (reconcile_not_killed h)

/-- An access that derives one position of an account derives them all. -/
theorem addressAt_all {q : WotsIndex} {a : Address} (hm : ks.memory = some p)
    (h : ks.addressAt tag q access = .ok a) :
    ∃ at' : WotsIndex → Address, ∀ q, ks.addressAt tag q access = .ok (at' q) := by
  obtain ⟨slot, key, hslot, hkey, -⟩ := (addressAt_eq_ok hm).mp h
  rcases hkind : slot.account.key with ⟨accountIndex, stream⟩ | ⟨root, first, stream⟩
  · obtain ⟨master, haccess, htag, hroot, hstream, -⟩ := (keyAt_derived hkind).mp hkey
    exact ⟨_, fun q => (addressAt_eq_ok hm).mpr
      ⟨slot, _, hslot, (keyAt_derived hkind).mpr ⟨master, haccess, htag, hroot, hstream, rfl⟩, rfl⟩⟩
  · obtain ⟨haccess, -⟩ := (keyAt_imported hkind).mp hkey
    exact ⟨_, fun q => (addressAt_eq_ok hm).mpr
      ⟨slot, _, hslot, (keyAt_imported hkind).mpr ⟨haccess, rfl⟩, rfl⟩⟩

/-- What a reconciliation says of the address it heard, exactly. -/
theorem reconcile_classifies {found : Except Divergence AccountStatus} (hm : ks.memory = some p)
    (hslot : p.slots.get? tag = some slot) (hat : ∀ q, ks.addressAt tag q access = .ok (at' q))
    (hentries : n.entries = .ok entry :: entries) (htag : tagOf entry.address = tag)
    (h : reconcileAccountWith ks tag access scope cancel n = (.ofExcept found, n')) :
    (slot.pending = none →
      (found = .ok (.inSync slot.account.wotsIndex entry.address entry.balance) ↔
        at' slot.account.wotsIndex = entry.address) ∧
      (at' slot.account.wotsIndex ≠ entry.address → ∃ position reverted,
        found = .error (.indexMismatch tag slot.account.wotsIndex (at' slot.account.wotsIndex)
          entry.address entry.balance slot.account.key.stream position reverted) ∧
        position.Exact at' scope slot.account.wotsIndex entry.address (n.Goes cancel) ∧
        RevertedExactly slot.settled position reverted)) ∧
    ∀ pending, slot.pending = some pending →
      ((∃ reservation, found = .ok (.spendOutstanding pending.spentIndex entry.balance reservation)) ↔
        at' pending.spentIndex = entry.address) ∧
      (at' pending.spentIndex ≠ entry.address →
        (found = .ok (.spendLanded pending.spentIndex slot.account.wotsIndex entry.balance) ↔
          at' slot.account.wotsIndex = entry.address) ∧
        (at' slot.account.wotsIndex ≠ entry.address → ∃ position,
          found = .error (.reservationUnexplained tag pending.spentIndex entry.address entry.balance
            slot.account.key.stream position) ∧
          position.Exact at' scope slot.account.wotsIndex entry.address (n.Goes cancel))) := by
  rw [reconcile_heard hm hslot hentries htag] at h
  constructor
  · intro hopen
    rw [hopen] at h
    exact reconcileClosed_exact hat h
  · intro pending hopen
    rw [hopen] at h
    exact reconcileOpen_exact hat h

end

section
attribute [local instance] Crypto.numbering

/-- The account of the last number, with two keys used. -/
def usedTwice (pending settled : Option Pending) : Slot :=
  ⟨{ Account.derive sevens 0xffffffff with wotsIndex := ⟨2⟩ }, pending, settled⟩

def secondSpend : Pending := ⟨⟨1⟩, .replicate 32 6, some ⟨100, 5⟩⟩

def lastAddress (position : WotsIndex) : Address :=
  (derivedKeyAt (deriveAccount sevens 0xffffffff) position).address lastTag

theorem addressAt_usedTwice (pending settled : Option Pending) (position : WotsIndex) :
    (loneStore (usedTwice pending settled)).addressAt lastTag position (.master sevens) =
      .ok (lastAddress position) :=
  @addressAt_loneStore _ (usedTwice pending settled) sevens 0xffffffff rfl rfl position

/-- A node that has one answer. -/
def told (address : Address) : Node := ⟨[.ok ⟨address, 105⟩], [], [], [], []⟩

/-- What it is told of: of its open reservation, at the address that spends; that it landed; of a
position ahead of it, which explains nothing; and of the settled position, one behind. -/
theorem reconcile_classifies_usedTwice :
    let opened := loneStore (usedTwice (some secondSpend) none)
    let settled := loneStore (usedTwice none (some secondSpend))
    (∃ reservation n', reconcileAccountWith opened lastTag (.master sevens) .diagnostic .never
      (told (lastAddress ⟨1⟩)) = (.ok (.spendOutstanding ⟨1⟩ 105 reservation), n')) ∧
    (∃ n', reconcileAccountWith opened lastTag (.master sevens) .diagnostic .never
      (told (lastAddress ⟨2⟩)) = (.ok (.spendLanded ⟨1⟩ ⟨2⟩ 105), n')) ∧
    (∃ gap n', reconcileAccountWith opened lastTag (.master sevens) .diagnostic .never
      (told (lastAddress ⟨5⟩)) = (.err (.reservationUnexplained lastTag ⟨1⟩ (lastAddress ⟨5⟩) 105
        (usedTwice none none).account.key.stream (.ahead ⟨5⟩ gap)), n') ∧ gap.toNat = 3) ∧
    ∃ gap n', reconcileAccountWith settled lastTag (.master sevens) .diagnostic .never
      (told (lastAddress ⟨1⟩)) = (.err (.indexMismatch lastTag ⟨2⟩ (lastAddress ⟨2⟩) (lastAddress ⟨1⟩) 105
        (usedTwice none none).account.key.stream (.behind ⟨1⟩ gap) (some secondSpend)), n') ∧
      gap.toNat = 1 := by
  intro opened settled
  have hslot (pending settled : Option Pending) :
      (loneState (usedTwice pending settled)).slots.get? lastTag = some (usedTwice pending settled) :=
    loneState_get?
  have htag (position : WotsIndex) : tagOf (lastAddress position) = lastTag := WotsKey.tagOf_address _ _
  have hinj : Function.Injective lastAddress := derivedKeyAt_injective sevens lastTag
  have hne {i j : WotsIndex} (h : i.pos ≠ j.pos) : lastAddress i ≠ lastAddress j :=
    fun he => h (congrArg WotsIndex.pos (hinj he))
  have hentries (position : WotsIndex) :
      (told (lastAddress position)).entries = [.ok ⟨lastAddress position, 105⟩] := rfl
  have hsaid (ks : Keystore) (address : Address) := @reconcile_returns _ ks lastTag (.master sevens)
    .diagnostic .never (told address)
  have hopened {position : WotsIndex} {found : Except Divergence AccountStatus} {n' : Node}
      (h : reconcileAccountWith opened lastTag (.master sevens) .diagnostic .never
        (told (lastAddress position)) = (.ofExcept found, n')) :=
    (reconcile_classifies (p := loneState (usedTwice (some secondSpend) none)) rfl (hslot _ _)
      (addressAt_usedTwice _ _) (hentries position) (htag position) h).2 secondSpend rfl
  refine ⟨?_, ?_, ?_, ?_⟩
  · obtain ⟨found, n', h⟩ := hsaid opened (lastAddress ⟨1⟩)
    obtain ⟨reservation, rfl⟩ := (hopened h).1.mpr rfl
    exact ⟨reservation, n', h⟩
  · obtain ⟨found, n', h⟩ := hsaid opened (lastAddress ⟨2⟩)
    obtain rfl := ((hopened h).2 (hne (by decide))).1.mpr rfl
    exact ⟨n', h⟩
  · obtain ⟨found, n', h⟩ := hsaid opened (lastAddress ⟨5⟩)
    obtain ⟨position, rfl, hexact⟩ := ((hopened h).2 (hne (by decide))).2 (hne (by decide))
    have hcovers : ScanScope.diagnostic.Covers ⟨2⟩ ⟨5⟩ := .inr (by decide +kernel)
    obtain ⟨gap, rfl, hgap⟩ | ⟨gap, rfl, hgap⟩ := hexact.located hinj (.inl rfl) hcovers
    · exact absurd hgap (by show 5 + gap.toNat ≠ 2; omega)
    · refine ⟨gap, n', h, ?_⟩
      have hgap : 5 = 2 + gap.toNat := hgap
      omega
  · obtain ⟨found, n', h⟩ := hsaid settled (lastAddress ⟨1⟩)
    obtain ⟨-, hother⟩ := (reconcile_classifies (p := loneState (usedTwice none (some secondSpend))) rfl
      (hslot _ _) (addressAt_usedTwice _ _) (hentries ⟨1⟩) (htag ⟨1⟩) h).1 rfl
    obtain ⟨position, reverted, rfl, hexact, hreverted⟩ := hother (hne (by decide))
    have hcovers : ScanScope.diagnostic.Covers ⟨2⟩ ⟨1⟩ := .inr (by decide +kernel)
    obtain ⟨gap, rfl, hgap⟩ | ⟨gap, rfl, hgap⟩ := hexact.located hinj (.inl rfl) hcovers
    · obtain rfl := (hreverted secondSpend).mpr ⟨rfl, gap, rfl⟩
      refine ⟨gap, n', h, ?_⟩
      have hgap : 1 + gap.toNat = 2 := hgap
      omega
    · exact absurd hgap (by show 1 ≠ 2 + gap.toNat; omega)

end

end MochimoWallet
