import MochimoWallet.Keystore.Adopted
import MochimoWallet.Recon.Classify
import MochimoWallet.Wallet.Moves

/-!
# The partition gates spending

An opening reconciles every account once, in tag order, with a node whose answers may
change from one account to the next. `Verdicts` is that pass, and the partition is what
it found (`openAccounts_verdicts`): so each account is on one side. No method writes the
partition, and the four that spend or sign read it before anything else, so an account
that diverged at the opening is refused for the whole life of the wallet.
-/

namespace MochimoWallet.Wallet

open Codec Keystore Session

/-! ## Both sides of a partition -/

/-- An account, and what reconciling it found. -/
abbrev Verdict := Tag × Except Divergence AccountStatus

namespace Verdict

def reconciled? : Verdict → Option (Tag × AccountStatus)
  | (tag, .ok status) => some (tag, status)
  | (_, .error _) => none

def diverged? : Verdict → Option Divergence
  | (_, .ok _) => none
  | (_, .error d) => some d

end Verdict

/-- The verdicts, each on its side. -/
def partitionOf (verdicts : List Verdict) : Partition :=
  ⟨verdicts.filterMap Verdict.reconciled?, verdicts.filterMap Verdict.diverged?⟩

/-- Each account is on one side, both sides are in tag order, and there are no other accounts. -/
structure Divides (part : Partition) (tags : List Tag) : Prop where
  accounts_order : (part.accounts.map Prod.fst).Pairwise (· < ·)
  diverged_order : (part.diverged.map Divergence.tag).Pairwise (· < ·)
  disjoint : ∀ tag ∈ part.accounts.map Prod.fst, tag ∉ part.diverged.map Divergence.tag
  together : ∀ tag, tag ∈ part.accounts.map Prod.fst ∨ tag ∈ part.diverged.map Divergence.tag ↔
    tag ∈ tags

section
variable {verdicts : List Verdict}

theorem mem_accounts {tag : Tag} : tag ∈ (partitionOf verdicts).accounts.map Prod.fst ↔
    ∃ status, (tag, .ok status) ∈ verdicts := by
  simp only [partitionOf, List.mem_map, List.mem_filterMap]
  constructor
  · rintro ⟨a, ⟨⟨tag', d | status⟩, hmem, hv⟩, rfl⟩ <;> cases hv
    exact ⟨status, hmem⟩
  · rintro ⟨status, hmem⟩
    exact ⟨(tag, status), ⟨_, hmem, rfl⟩, rfl⟩

theorem mem_diverged {d : Divergence} :
    d ∈ (partitionOf verdicts).diverged ↔ ∃ tag, (tag, .error d) ∈ verdicts := by
  simp only [partitionOf, List.mem_filterMap]
  constructor
  · rintro ⟨⟨tag, d' | status⟩, hmem, hv⟩ <;> cases hv
    exact ⟨tag, hmem⟩
  · rintro ⟨tag, hmem⟩
    exact ⟨_, hmem, rfl⟩

theorem accounts_sublist (verdicts : List Verdict) :
    ((partitionOf verdicts).accounts.map Prod.fst).Sublist (verdicts.map Prod.fst) := by
  induction verdicts with
  | nil => exact List.Sublist.slnil
  | cons v verdicts ih =>
    obtain ⟨tag, d | status⟩ := v
    · exact ih.cons tag
    · exact ih.cons_cons tag

/-- Divergences name the accounts they are of. -/
def Named (verdicts : List Verdict) : Prop := ∀ tag d, (tag, .error d) ∈ verdicts → d.tag = tag

theorem diverged_sublist (h : Named verdicts) :
    ((partitionOf verdicts).diverged.map Divergence.tag).Sublist (verdicts.map Prod.fst) := by
  induction verdicts with
  | nil => exact List.Sublist.slnil
  | cons v verdicts ih =>
    have hrest := ih fun tag d hmem => h tag d (List.mem_cons_of_mem _ hmem)
    obtain ⟨tag, d | status⟩ := v
    · obtain rfl := h tag d List.mem_cons_self
      exact hrest.cons_cons d.tag
    · exact hrest.cons tag

theorem divides_partitionOf (h : Named verdicts) (hsorted : (verdicts.map Prod.fst).Pairwise (· < ·)) :
    Divides (partitionOf verdicts) (verdicts.map Prod.fst) where
  accounts_order := hsorted.sublist (accounts_sublist verdicts)
  diverged_order := hsorted.sublist (diverged_sublist h)
  disjoint := by
    intro tag hok herr
    obtain ⟨status, hok⟩ := mem_accounts.mp hok
    obtain ⟨d, hd, rfl⟩ := List.mem_map.mp herr
    obtain ⟨tag, herr⟩ := mem_diverged.mp hd
    rw [h tag d herr] at hok
    have hnodup : (verdicts.map Prod.fst).Nodup := hsorted.imp ne_of_lt
    have := List.inj_on_of_nodup_map hnodup hok herr rfl
    simp at this
  together := by
    intro tag
    constructor
    · rintro (hok | herr)
      · exact (accounts_sublist verdicts).subset hok
      · exact (diverged_sublist h).subset herr
    · intro htag
      obtain ⟨⟨tag, d | status⟩, hmem, rfl⟩ := List.mem_map.mp htag
      · exact .inr (List.mem_map.mpr ⟨d, mem_diverged.mpr ⟨tag, hmem⟩, h tag d hmem⟩)
      · exact .inl (mem_accounts.mpr ⟨status, hmem⟩)

/-- The one divergence of a tag is the one its methods refuse with. -/
theorem divergenceFor_of_mem {part : Partition} {d : Divergence}
    (hsorted : (part.diverged.map Divergence.tag).Pairwise (· < ·)) (hd : d ∈ part.diverged) :
    part.divergenceFor d.tag = some d := by
  unfold Partition.divergenceFor
  rcases hfind : part.diverged.find? fun d' => d'.tag = d.tag with _ | d'
  · have := List.find?_eq_none.mp hfind d hd
    simp at this
  · have htag := List.find?_some hfind
    have hnodup : (part.diverged.map Divergence.tag).Nodup := hsorted.imp ne_of_lt
    rw [hfind, List.inj_on_of_nodup_map hnodup (List.mem_of_find?_eq_some hfind) hd
      (by simpa using htag)]

end

section
variable [Crypto] {D : Type}

/-! ## What an opening finds -/

/-- The pass of an opening that is not stopped: one account after the other, with the node as the
one before left it. -/
inductive Verdicts (ks : Keystore) (master : Option Secret) :
    List Tag → Node → List Verdict → Node → Prop where
  | nil (n : Node) : Verdicts ks master [] n [] n
  | unreadable {tag : Tag} {d : Divergence} {tags : List Tag} {n m : Node} {verdicts : List Verdict}
      (haccess : accessFor ks tag master = .error d) (hrest : Verdicts ks master tags n verdicts m) :
      Verdicts ks master (tag :: tags) n ((tag, .error d) :: verdicts) m
  | reconciled {tag : Tag} {access : KeyAccess} {found : Except Divergence AccountStatus}
      {tags : List Tag} {n u m : Node} {verdicts : List Verdict}
      (haccess : accessFor ks tag master = .ok access)
      (hfound : reconcileAccountWith ks tag access .diagnostic .never n = (.ofExcept found, u))
      (hrest : Verdicts ks master tags u verdicts m) :
      Verdicts ks master (tag :: tags) n ((tag, found) :: verdicts) m

section
variable {ks : Keystore} {p : Parsed} {master : Option Secret} {tags : List Tag} {n m : Node}
  {verdicts : List Verdict}

theorem Verdicts.tags_eq (h : Verdicts ks master tags n verdicts m) :
    verdicts.map Prod.fst = tags := by
  induction h with
  | nil => rfl
  | unreadable haccess hrest ih => rw [List.map_cons, ih]
  | reconciled haccess hfound hrest ih => rw [List.map_cons, ih]

theorem accessFor_error {tag : Tag} {d : Divergence} (h : accessFor ks tag master = .error d) :
    d.tag = tag := by
  unfold accessFor at h
  rcases bind_eq_error.mp h with h | ⟨view, -, h⟩
  · exact (viewOf_error h).2
  · split at h
    · cases h
    · split at h <;> cases h
      rfl

theorem Verdicts.named (hm : ks.memory = some p) (h : Verdicts ks master tags n verdicts m) :
    Named verdicts := by
  induction h with
  | nil => exact fun _ _ hmem => absurd hmem List.not_mem_nil
  | unreadable haccess hrest ih =>
    intro tag d hmem
    rcases List.mem_cons.mp hmem with heq | hmem
    · cases heq
      exact accessFor_error haccess
    · exact ih tag d hmem
  | reconciled haccess hfound hrest ih =>
    intro tag d hmem
    rcases List.mem_cons.mp hmem with heq | hmem
    · cases heq
      cases reconcile_end hm hfound with
      | ahead _ _ _ _ _ _ htag => exact htag
      | other _ htag => exact htag
    · exact ih tag d hmem

omit [Crypto] in
theorem stopIf_never {σ ε : Type} (stop : Bool) :
    (stopIf stop .never : Call σ (Unfinished ε) Unit) = pure () := by
  cases stop <;> rfl

omit [Crypto] in
theorem partitionOf_cons (v : Verdict) (verdicts : List Verdict) :
    partitionOf (v :: verdicts) =
      ⟨(partitionOf [v]).accounts ++ (partitionOf verdicts).accounts,
        (partitionOf [v]).diverged ++ (partitionOf verdicts).diverged⟩ := by
  obtain ⟨tag, d | status⟩ := v <;> rfl

variable (master) in
/-- One account of the loop. -/
theorem openAccount_never (part : Partition) (tag : Tag) (s : Session D) :
    ∃ found u, (∀ {tags verdicts m}, Verdicts s.store.ks master tags u verdicts m →
        Verdicts s.store.ks master (tag :: tags) s.node ((tag, found) :: verdicts) m) ∧
      openAccount master .never part tag s =
        (.ok ⟨part.accounts ++ (partitionOf [(tag, found)]).accounts,
          part.diverged ++ (partitionOf [(tag, found)]).diverged⟩, { s with node := u }) := by
  have hask : (asking (fun _ => askStop .never) : Call (Session D) (Unfinished StartupRefusal) Bool) s =
      (.ok false, s) := rfl
  unfold openAccount
  rw [Call.bind_of_ok hask, stopIf_never, Call.pure_bind, Call.get_bind]
  rcases haccess : accessFor s.store.ks tag master with d | access
  · exact ⟨.error d, s.node, .unreadable haccess, by simp [partitionOf, Verdict.reconciled?,
      Verdict.diverged?]⟩
  obtain ⟨found, u, hfound⟩ : ∃ found u, reconcileAccountWith s.store.ks tag access .diagnostic .never
      s.node = (.ofExcept found, u) := reconcile_returns
  have hasked : (asking (fun ks => (reconcileAccountWith ks tag access .diagnostic .never).attempt) :
      Call (Session D) (Unfinished StartupRefusal) _) s = (.ok found, { s with node := u }) := by
    refine asking_of ?_
    unfold Call.attempt
    rw [hfound]
    cases found <;> rfl
  refine ⟨found, u, .reconciled haccess hfound, ?_⟩
  dsimp only
  rw [Call.bind_of_ok hasked]
  rcases found with d | status
  · dsimp only
    rw [stopIf_never, Call.pure_bind]
    simp [partitionOf, Verdict.reconciled?, Verdict.diverged?]
  · simp [partitionOf, Verdict.reconciled?, Verdict.diverged?]

variable (master) in
/-- The loop of an opening makes the partition of its pass. -/
theorem openAccounts_verdicts (tags : List Tag) : ∀ (part : Partition) (s : Session D),
    ∃ verdicts m, Verdicts s.store.ks master tags s.node verdicts m ∧
      openAccounts master .never tags part s =
        (.ok ⟨part.accounts ++ (partitionOf verdicts).accounts,
          part.diverged ++ (partitionOf verdicts).diverged⟩, { s with node := m }) := by
  induction tags with
  | nil => exact fun part s => ⟨[], s.node, .nil _, by simp [openAccounts, partitionOf]⟩
  | cons tag tags ih =>
    intro part s
    obtain ⟨found, u, hverdicts, hopen⟩ := openAccount_never master part tag s
    obtain ⟨verdicts, m, hrest, hloop⟩ := ih ⟨part.accounts ++ (partitionOf [(tag, found)]).accounts,
      part.diverged ++ (partitionOf [(tag, found)]).diverged⟩ { s with node := u }
    refine ⟨(tag, found) :: verdicts, m, hverdicts hrest, ?_⟩
    rw [openAccounts, Call.bind_of_ok hopen, hloop, partitionOf_cons (tag, found) verdicts]
    simp only [List.append_assoc]

variable (master) in
/-- An opening that is not stopped: what it found, and the wallet or the refusal made of that. -/
theorem openAsking_verdicts {s : Session D} (hm : s.store.ks.memory = some p) :
    ∃ verdicts m, Verdicts s.store.ks master p.slots.keys s.node verdicts m ∧
      openAsking master .never s =
        (if (partitionOf verdicts).accounts = [] ∧ (partitionOf verdicts).diverged ≠ [] then
          .err (.refused ⟨(partitionOf verdicts).diverged, p.slots.keys.length⟩)
        else .ok (partitionOf verdicts), { s with node := m }) := by
  have htags : s.store.ks.tags = .ok p.slots.keys := by
    rw [Keystore.tags, live_of_memory hm, ok_bind]
  obtain ⟨verdicts, m, hverdicts, hloop⟩ :=
    openAccounts_verdicts master p.slots.keys ⟨[], []⟩ s
  refine ⟨verdicts, m, hverdicts, ?_⟩
  unfold openAsking
  rw [Call.get_bind, htags]
  dsimp only
  rw [Call.bind_of_ok hloop, Call.ite_apply]
  simp only [List.nil_append]
  split <;> rfl

variable (master) in
/-- A handle that is poisoned has no accounts to ask about, and does not open. -/
theorem openAsking_poisoned {s : Session D} (hm : s.store.ks.memory = none) :
    ∃ first, openAsking master .never s =
      (.err (.refused ⟨[.cannotReconcile (.zero addrTagLen) (.poisoned first)], 0⟩), s) := by
  obtain ⟨first, hfirst⟩ := poisoned_of_memory hm
  have htags : s.store.ks.tags = .error (.poisoned first) := by
    rw [Keystore.tags, live, hfirst]
    rfl
  refine ⟨first, ?_⟩
  unfold openAsking
  rw [Call.get_bind, htags]
  rfl

omit [Crypto] in
/-- Some account diverged and none reconciled, in what was found. -/
theorem partitionOf_refused : (partitionOf verdicts).accounts = [] ∧
    (partitionOf verdicts).diverged ≠ [] ↔ (∃ v ∈ verdicts, ∃ d, v.2 = .error d) ∧
      ∀ v ∈ verdicts, ∀ status, v.2 ≠ .ok status := by
  constructor
  · rintro ⟨hnone, hsome⟩
    obtain ⟨d, hd⟩ := List.exists_mem_of_ne_nil _ hsome
    obtain ⟨tag, hmem⟩ := mem_diverged.mp hd
    refine ⟨⟨_, hmem, d, rfl⟩, ?_⟩
    rintro ⟨tag, found⟩ hmem status rfl
    have := mem_accounts.mpr ⟨status, hmem⟩
    rw [hnone] at this
    cases this
  · rintro ⟨⟨⟨tag, found⟩, hmem, d, rfl⟩, hnone⟩
    refine ⟨List.eq_nil_iff_forall_not_mem.mpr fun a ha => ?_, ?_⟩
    · obtain ⟨status, hok⟩ := mem_accounts.mp (List.mem_map_of_mem ha)
      exact hnone _ hok status rfl
    · exact List.ne_nil_of_mem (mem_diverged.mpr ⟨tag, hmem⟩)

end

/-! ## The life of a wallet -/

/-- The addresses a spend from `tag` is built for. -/
def spendAddresses (part : Partition) (tag : Tag) (access : KeyAccess) :
    Call (Session D) Error SpendAddresses := do
  let s ← Call.get
  Call.check (part.requireReconciled tag)
  Call.check (s.store.ks.spendAddresses tag access)

/-- Call a method on a wallet: it acts on the session, and reads the partition. -/
def act {ε α : Type} (x : Partition → Call (Session D) ε α) : Call (Wallet D) ε α := fun w =>
  Call.zoom Wallet.toSession (fun s w => { w with toSession := s }) (x w.toPartition) w

theorem act_of {ε α : Type} {x : Partition → Call (Session D) ε α} {w : Wallet D} {r : Reply ε α}
    (h : x w.toPartition w.toSession = (r, w.toSession)) : act x w = (r, w) := by
  unfold act Call.zoom
  rw [h]

theorem act_partition {ε α : Type} {x : Partition → Call (Session D) ε α} {w w' : Wallet D}
    {r : Reply ε α} (h : act x w = (r, w')) : w'.toPartition = w.toPartition := by
  obtain ⟨s, -, rfl⟩ := Call.zoom_cases h
  rfl

/-- What becomes of a wallet: calls of its methods in any order, and a node that may answer each of
them anew. -/
inductive Life [Layout D] : Wallet D → Wallet D → Prop where
  | start (w : Wallet D) : Life w w
  | called {w v u : Wallet D} {reply : Reply Error Answer} (method : Method) (before : Life w v)
      (hcall : act (method.call ·) v = (reply, u)) : Life w u
  | asked {w v u : Wallet D} {tag : Tag} {access : KeyAccess} {reply : Reply Error SpendAddresses}
      (before : Life w v) (hcall : act (spendAddresses · tag access) v = (reply, u)) : Life w u
  | answering {w v : Wallet D} (node : Node) (before : Life w v) : Life w { v with node }

/-- The partition is the opening's for the whole of the wallet's life. -/
theorem Life.partition [Layout D] {w v : Wallet D} (h : Life w v) :
    v.toPartition = w.toPartition := by
  induction h with
  | start => rfl
  | called method before hcall ih => exact (act_partition hcall).trans ih
  | asked before hcall ih => exact (act_partition hcall).trans ih
  | answering node before ih => exact ih

/-- The four methods that spend or sign refuse the account with its divergence, and leave the
wallet as it is: the store, and the node unasked. -/
structure Refuses [Layout D] (w : Wallet D) (d : Divergence) : Prop where
  addresses : ∀ access, act (spendAddresses · d.tag access) w =
    (.err (.reconciliationRefused d.kind), w)
  plans : ∀ access dsts feeTotal blkToLive,
    act (fun part => plan part d.tag access dsts feeTotal blkToLive) w =
      (.err (.reconciliationRefused d.kind), w)
  reserves : ∀ (plan : SpendPlan) access, plan.tag = d.tag →
    act (fun part => reserveAndSign part plan access) w = (.err (.reconciliationRefused d.kind), w)
  resigns : ∀ access dsts feeTotal blkToLive,
    act (fun part => resignPending part d.tag access dsts feeTotal blkToLive) w =
      (.err (.reconciliationRefused d.kind), w)

variable [Layout D]

theorem refuses_of_divergenceFor {w : Wallet D} {d : Divergence}
    (h : w.toPartition.divergenceFor d.tag = some d) : Refuses w d := by
  have hguard : w.toPartition.requireReconciled d.tag = .error (.reconciliationRefused d.kind) := by
    rw [Partition.requireReconciled, h]
  constructor
  · intro access
    refine act_of ?_
    rw [spendAddresses, Call.get_bind, hguard]
    rfl
  · intro access dsts feeTotal blkToLive
    refine act_of ?_
    rw [plan, Call.get_bind, hguard]
    rfl
  · intro plan access hplan
    refine act_of ?_
    rw [reserveAndSign, Call.get_bind, hplan, hguard]
    rfl
  · intro access dsts feeTotal blkToLive
    refine act_of ?_
    rw [resignPending, Call.get_bind, hguard]
    rfl

/-- An opening reconciles each account of the store once. It refuses exactly when the handle is
poisoned, or some account diverged and none reconciled; a wallet it opens has every account of the
store on one side of its partition, each side in tag order, and for the whole of its life the
methods that spend or sign refuse every account that diverged, whatever plan they are given. -/
theorem open_partitions_and_gates (s : Session D) (master : Option Secret) :
    (s.store.ks.memory = none → ∃ first, openAsking master .never s =
      (.err (.refused ⟨[.cannotReconcile (.zero addrTagLen) (.poisoned first)], 0⟩), s)) ∧
    ∀ p, s.store.ks.memory = some p → ∃ verdicts m,
      Verdicts s.store.ks master p.slots.keys s.node verdicts m ∧
      ((∃ refusal t, openAsking master .never s = (.err refusal, t)) ↔
        (∃ v ∈ verdicts, ∃ d, v.2 = .error d) ∧ ∀ v ∈ verdicts, ∀ status, v.2 ≠ .ok status) ∧
      ((∃ part t, openAsking master .never s = (.ok part, t)) ∨
        ∃ refusal t, openAsking master .never s = (.err refusal, t)) ∧
      ∀ part t, openAsking master .never s = (.ok part, t) →
        t.store = s.store ∧ Divides part p.slots.keys ∧
        ∀ w : Wallet D, Life ⟨t, part⟩ w → ∀ d ∈ part.diverged, Refuses w d := by
  refine ⟨openAsking_poisoned master, fun p hm => ?_⟩
  obtain ⟨verdicts, m, hverdicts, hopen⟩ := openAsking_verdicts master hm
  refine ⟨verdicts, m, hverdicts, ?_, ?_, ?_⟩
  · rw [hopen, ← partitionOf_refused]
    split
    · next h => exact iff_of_true ⟨_, _, rfl⟩ h
    · next h =>
      refine iff_of_false ?_ h
      rintro ⟨refusal, t, heq⟩
      cases heq
  · rw [hopen]
    split
    · exact .inr ⟨_, _, rfl⟩
    · exact .inl ⟨_, _, rfl⟩
  · intro part t heq
    rw [hopen] at heq
    split at heq
    · cases heq
    cases heq
    have hdivides := divides_partitionOf (hverdicts.named hm) (by
      rw [hverdicts.tags_eq, OrdMap.keys, List.pairwise_map]
      exact p.slots.sorted)
    rw [hverdicts.tags_eq] at hdivides
    refine ⟨rfl, hdivides, fun w hlife d hd => refuses_of_divergenceFor ?_⟩
    rw [hlife.partition]
    exact divergenceFor_of_mem hdivides.diverged_order hd

end

section
attribute [local instance] Crypto.copying

/-- The store of `created`, its master adopted by a commit that fails before it writes. -/
def abandoned : Option (Opened UnixMedium) :=
  created.bind fun store =>
    match adoptMaster sevens ⟨store.ks, ⟨store.medium.disk, [.failed false none (.io "write" .interrupted)], []⟩⟩ with
    | (.err _, store) => some store
    | _ => none

/-- A store that has no account is refused, its handle being poisoned: no account diverged. -/
theorem open_refuses_poisoned : ∃ store store' refusal, created = some store ∧
    store.ks.memory = some emptyStore ∧ abandoned = some store' ∧
    openAsking none .never ⟨store', ⟨[], [], [], [], []⟩⟩ =
      (.err (.refused refusal), ⟨store', ⟨[], [], [], [], []⟩⟩) ∧ refusal.accounts = 0 := by
  have hrun : (created.bind fun store => abandoned.bind fun store' =>
      if store'.ks.memory.isNone then some (store, store') else none).isSome := by decide +kernel
  obtain ⟨⟨store, store'⟩, hrun⟩ := Option.isSome_iff_exists.mp hrun
  obtain ⟨made, hmade, hrun⟩ := Option.bind_eq_some_iff.mp hrun
  obtain ⟨left, hleft, hrun⟩ := Option.bind_eq_some_iff.mp hrun
  split at hrun
  · next hnone =>
    obtain ⟨first, hopen⟩ := openAsking_poisoned none
      (s := ⟨left, ⟨[], [], [], [], []⟩⟩) (by simpa using hnone)
    exact ⟨made, left, _, hmade, memory_of_created hmade, hleft, hopen, rfl⟩
  · cases hrun

end

end MochimoWallet.Wallet
