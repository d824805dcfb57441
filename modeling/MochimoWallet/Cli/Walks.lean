import MochimoWallet.Cli.Effects

/-!
# The explorer's walks

`blocks` and `mempool` read one page of the node after another: the newest blocks from the tip down, and
the first transactions of the queue. Each asks its questions in order and once, reads every reply with
its own question's parser, and stops at the first that has no answer; what was read before a stop is on
no page (`blocks_whole`, `mempool_whole`).
-/

namespace MochimoWallet.Cli

open Codec Mesh

/-! ## Calls that answer -/

section
variable {σ ε δ α : Type} {s s' : σ}

theorem attempt_of {x : Call σ δ α} {r : Except δ α} (h : x s = (.ofExcept r, s')) :
    (x.attempt : Call σ ε (Except δ α)) s = (.ok r, s') := by
  unfold Call.attempt
  cases r <;> simp only [h, Reply.ofExcept]

theorem mapErr_of {x : Call σ ε α} {f : ε → δ} {r : Except ε α} (h : x s = (.ofExcept r, s')) :
    x.mapErr f s = (.ofExcept (r.mapError f), s') := by
  unfold Call.mapErr
  cases r <;> simp only [h, Reply.ofExcept, Except.mapError]

end

/-! ## A walk -/

section
variable {ι α : Type}

/-- What comes of a question about an item, from the replies to come. -/
abbrev Answering (ι α : Type) := ι → List (Except Error Bytes) → Except QueryError α

/-- The questions about `items` were asked in order, each was answered by the reply that came to it,
and the walk ended with the items or at the first that had no answer. -/
structure Walks (q : ι → Query) (answer : Answering ι α) (items : List ι) (x x' : Transport)
    (rows : List α) (stop : Option (ι × QueryError)) : Prop where
  reads : ∀ k i row, items[k]? = some i → rows[k]? = some row → answer i (x.replies.drop k) = .ok row
  ends : (stop = none ∧ rows.length = items.length ∧ x'.asked = (items.map q).reverse ++ x.asked) ∨
    ∃ i cause, stop = some (i, cause) ∧ items[rows.length]? = some i ∧
      answer i (x.replies.drop rows.length) = .error cause ∧
      x'.asked = ((items.take (rows.length + 1)).map q).reverse ++ x.asked

/-- What a walk returns to its caller. -/
def walkReply (rows : List α) : Option (ι × QueryError) → Reply (ι × QueryError) (List α)
  | none => .ok rows
  | some stop => .err stop

/-- Ask about each item, and keep what it answers. -/
def walkEach (ask : ι → Call Transport (ι × QueryError) α) : List ι → List α →
    Call Transport (ι × QueryError) (List α)
  | [], rows => pure rows
  | i :: items, rows => do
    let row ← ask i
    walkEach ask items (rows ++ [row])

/-- One question an item, read from the next reply. -/
def Asks (q : ι → Query) (answer : Answering ι α)
    (ask : ι → Call Transport (ι × QueryError) α) : Prop :=
  ∀ i x, ask i x = (.ofExcept ((answer i x.replies).mapError fun cause => (i, cause)),
    ⟨x.replies.tail, q i :: x.asked⟩)

variable {q : ι → Query} {answer : Answering ι α} {ask : ι → Call Transport (ι × QueryError) α}

theorem Walks.cons {i : ι} {items : List ι} {x x' : Transport} {row : α} {rows : List α}
    {stop : Option (ι × QueryError)} (hrow : answer i x.replies = .ok row)
    (h : Walks q answer items ⟨x.replies.tail, q i :: x.asked⟩ x' rows stop) :
    Walks q answer (i :: items) x x' (row :: rows) stop := by
  have hdrop (k : ℕ) : x.replies.drop (k + 1) = x.replies.tail.drop k := by
    rw [List.drop_tail]
  constructor
  · intro k j row' hj hrow'
    cases k with
    | zero =>
      cases hj
      cases hrow'
      exact hrow
    | succ k =>
      rw [hdrop]
      exact h.reads k j row' hj hrow'
  · rcases h.ends with ⟨hstop, hlen, hasked⟩ | ⟨j, cause, hstop, hj, hcause, hasked⟩
    · refine .inl ⟨hstop, by rw [List.length_cons, List.length_cons, hlen], ?_⟩
      rw [hasked, List.map_cons, List.reverse_cons, List.append_assoc]
      rfl
    · refine .inr ⟨j, cause, hstop, hj, ?_, ?_⟩
      · rw [List.length_cons, hdrop]
        exact hcause
      · rw [hasked, List.length_cons, List.take_succ_cons, List.map_cons, List.reverse_cons, List.append_assoc]
        rfl

/-- A walk over any items, whatever replies come; the rows read before it stay in front. -/
theorem walkEach_walks (hask : Asks q answer ask) (items : List ι) : ∀ (before : List α) (x : Transport),
    ∃ rows stop x', walkEach ask items before x = (walkReply (before ++ rows) stop, x') ∧
      Walks q answer items x x' rows stop := by
  induction items with
  | nil =>
    intro before x
    refine ⟨[], none, x, ?_, ⟨?_, .inl ⟨rfl, rfl, rfl⟩⟩⟩
    · rw [List.append_nil]
      rfl
    · intro k i row hi _
      cases hi
  | cons i items ih =>
    intro before x
    have hfirst := hask i x
    rcases hanswer : answer i x.replies with cause | row <;> rw [hanswer] at hfirst
    · refine ⟨[], some (i, cause), ⟨x.replies.tail, q i :: x.asked⟩, ?_,
        ⟨?_, .inr ⟨i, cause, rfl, rfl, hanswer, rfl⟩⟩⟩
      · rw [walkEach, Call.bind_apply, hfirst, List.append_nil]
        rfl
      · intro k j row _ hrow
        cases hrow
    · obtain ⟨rows, stop, x', hwalk, hwalks⟩ := ih (before ++ [row]) ⟨x.replies.tail, q i :: x.asked⟩
      refine ⟨row :: rows, stop, x', ?_, hwalks.cons hanswer⟩
      rw [walkEach, Call.bind_of_ok hfirst, hwalk, List.append_assoc]
      rfl

end

/-! ## The newest blocks -/

section
variable (read : Bytes → Option Json.Value)

/-- The indices of the newest blocks, from the tip down; index 0 asks for the tip again, so it is none
of them. -/
def newest (tip count : UInt64) : List UInt64 :=
  (List.range (min count.toNat tip.toNat)).map fun k => .ofNat (tip.toNat - k)

/-- The loop of `blocks`, from its `i`-th turn on, is a walk over the indices it has left. -/
theorem walkBlocks_eq (tip : UInt64) (left : ℕ) : ∀ i rows, walkBlocks read tip left i rows =
    walkEach (fun index => (blockByIndex read index).mapErr fun cause => (index, cause))
      ((List.range' i (min left (tip.toNat - i))).map fun k => .ofNat (tip.toNat - k)) rows := by
  induction left with
  | zero =>
    intro i rows
    rw [Nat.zero_min]
    rfl
  | succ left ih =>
    intro i rows
    rw [walkBlocks]
    split
    · next hle =>
      rw [Nat.sub_eq_zero_of_le hle, Nat.min_zero]
      rfl
    · next hlt =>
      have hmin : min (left + 1) (tip.toNat - i) = min left (tip.toNat - (i + 1)) + 1 := by omega
      rw [hmin, List.range'_succ, List.map_cons, walkEach]
      exact congrArg (Bind.bind _) (funext fun block => ih (i + 1) (rows ++ [block]))

theorem asks_block : Asks Query.blockByIndex (fun _ => answerTo (parseBlock read))
    (fun index => (blockByIndex read index).mapErr fun cause => (index, cause)) := by
  intro index x
  have hasked : blockByIndex read index x = _ := ask_eq
  exact mapErr_of hasked

/-! ## The queue -/

/-- A waiting transaction, from the reply to come. -/
def rowAnswer : Answering Digest MempoolRow := fun id replies =>
  match answerTo (parseMempoolTransaction read) replies with
  | .ok t => .ok ⟨id, some t⟩
  | .error (.reply (.mesh 3 _)) => .ok ⟨id, none⟩
  | .error cause => .error cause

theorem walkMempool_eq (ids : List Digest) : ∀ rows,
    walkMempool read ids rows = walkEach (mempoolRowOf read) ids rows := by
  induction ids with
  | nil => exact fun rows => rfl
  | cons id ids ih =>
    intro rows
    rw [walkMempool, walkEach]
    exact congrArg (Bind.bind _) (funext fun row => ih (rows ++ [row]))

theorem asks_row : Asks Query.mempoolTransaction (rowAnswer read) (mempoolRowOf read) := by
  intro id x
  have hasked : mempoolTransaction read id x = _ := ask_eq
  rw [mempoolRowOf, Call.bind_of_ok (attempt_of hasked), rowAnswer]
  rcases answerTo (parseMempoolTransaction read) x.replies with (cause | cause) | tx
  · rfl
  · cases cause with
    | mesh code retriable =>
      -- a code 3 is a row of the page; any other refusal stops the walk
      by_cases hcode : code = 3
      · subst hcode
        rfl
      · simp [hcode, Except.mapError, Reply.ofExcept]
    | _ => rfl
  · rfl

/-! ## The pages -/

variable [Crypto] {D : Type}

theorem onExplorer_of {ε δ α : Type} {x : Call Transport δ α} {r : Except δ α} {e : Transport}
    {t : Desk D} (h : x t.explorer = (.ofExcept r, e)) :
    Desk.onExplorer (ε := ε) x t = (.ok r, { t with explorer := e }) := by
  unfold Desk.onExplorer Call.zoom
  rw [attempt_of h]

/-- `blocks`, whatever the node says: a page of the newest blocks has all of them, each as the reply to
its own question had it, and where one has no reading the command stops there, on no page at all. -/
theorem blocks_whole (count : UInt64) (t : Desk D) : ∃ o e,
    cmdBlocks (ε := Empty) read count t = (.ok o, { t with explorer := e }) ∧
      match answerTo (parseNetworkStatus read) t.explorer.replies with
      | .error cause => o = .explorerFailed cause ∧
          e.asked = .networkStatus :: t.explorer.asked
      | .ok tip => ∃ rows stop, Walks .blockByIndex (fun _ => answerTo (parseBlock read))
          (newest tip.index count) ⟨t.explorer.replies.tail, .networkStatus :: t.explorer.asked⟩
          e rows stop ∧
          o = match stop with
            | none => .blocks count tip rows
            | some (index, cause) => .blocksStopped index cause := by
  have hstatus : networkStatus read t.explorer = _ := ask_eq
  have hfirst := onExplorer_of (ε := Empty) hstatus
  unfold cmdBlocks
  rw [Call.bind_of_ok hfirst]
  rcases answerTo (parseNetworkStatus read) t.explorer.replies with cause | tip
  · exact ⟨_, _, rfl, rfl, rfl⟩
  dsimp only
  let x : Transport := ⟨t.explorer.replies.tail, .networkStatus :: t.explorer.asked⟩
  obtain ⟨rows, stop, x', hwalk, hwalks⟩ := walkEach_walks (asks_block read) (newest tip.index count) [] x
  have hwalk : walkBlocks read tip.index count.toNat 0 [] x = (walkReply rows stop, x') := by
    rw [walkBlocks_eq, Nat.sub_zero, ← List.range_eq_range']
    exact hwalk
  rcases stop with _ | ⟨index, cause⟩
  · have hsecond := onExplorer_of (ε := Empty) (r := .ok rows) (t := { t with explorer := x }) hwalk
    rw [Call.bind_of_ok hsecond]
    exact ⟨_, _, rfl, rows, none, hwalks, rfl⟩
  · have hsecond := onExplorer_of (ε := Empty) (r := .error (index, cause)) (t := { t with explorer := x }) hwalk
    rw [Call.bind_of_ok hsecond]
    exact ⟨_, _, rfl, rows, some (index, cause), hwalks, rfl⟩

/-- `mempool`, whatever the node says: a page of the queue has its first transactions, each as the reply
to its own question had it or as gone from the queue, and any other refusal is on no page at all. -/
theorem mempool_whole (count : UInt64) (t : Desk D) : ∃ o e,
    cmdMempool (ε := Empty) read count t = (.ok o, { t with explorer := e }) ∧
      match answerTo (parseMempool read) t.explorer.replies with
      | .error cause => o = .explorerFailed cause ∧ e.asked = .mempool :: t.explorer.asked
      | .ok ids => ∃ rows stop, Walks .mempoolTransaction (rowAnswer read) (ids.take count.toNat)
          ⟨t.explorer.replies.tail, .mempool :: t.explorer.asked⟩ e rows stop ∧
          o = match stop with
            | none => .mempool count ids.length rows
            | some (id, cause) => .mempoolStopped id cause := by
  have hqueue : Mesh.mempool read t.explorer = _ := ask_eq
  have hfirst := onExplorer_of (ε := Empty) hqueue
  unfold cmdMempool
  rw [Call.bind_of_ok hfirst]
  rcases answerTo (parseMempool read) t.explorer.replies with cause | ids
  · exact ⟨_, _, rfl, rfl, rfl⟩
  dsimp only
  let x : Transport := ⟨t.explorer.replies.tail, .mempool :: t.explorer.asked⟩
  obtain ⟨rows, stop, x', hwalk, hwalks⟩ := walkEach_walks (asks_row read) (ids.take count.toNat) [] x
  rw [← walkMempool_eq] at hwalk
  rcases stop with _ | ⟨id, cause⟩
  · have hsecond := onExplorer_of (ε := Empty) (r := .ok rows) (t := { t with explorer := x }) hwalk
    rw [Call.bind_of_ok hsecond]
    exact ⟨_, _, rfl, rows, none, hwalks, rfl⟩
  · have hsecond := onExplorer_of (ε := Empty) (r := .error (id, cause)) (t := { t with explorer := x }) hwalk
    rw [Call.bind_of_ok hsecond]
    exact ⟨_, _, rfl, rows, some (id, cause), hwalks, rfl⟩

end

end MochimoWallet.Cli
