import MochimoWallet.Cli.Pages

/-!
# The figures on a page are exact

What the codec accepts has few enough operations, of short enough amounts, that no sum of them
leaves its word: the row caps and the digit cap bound a whole block's amounts by a tenth of what 128
bits hold (`sum_of_bounded`). So each page is printed, of sums that are the sums of the integers: what each
figure is of is said of the transactions themselves (`worth`, `Mints`, `NamesTag`), and that it stands
on the page where its label is (`Shows`). What is printed of a sum is read back as it, in nanoMCM and in
MCM (`nanoAndMcm_reads`).
-/

namespace MochimoWallet.Cli

open Codec Mesh I128

/-! ## What a figure is of -/

/-- What the operations that are `p` come to; the others count nothing. -/
def worth (p : Operation → Prop) [DecidablePred p] (ops : List Operation) : ℤ :=
  (ops.map fun o => if p o then o.amount.toInt else 0).sum

/-- An operation that pays a destination. -/
def Pays (o : Operation) : Prop := o.kind = "DESTINATION_TRANSFER".toList

/-- An operation that is a fee. -/
def IsFee (o : Operation) : Prop := o.kind = "FEE".toList

/-- An operation of the address that is the tag's hexadecimal, as it is or after `0x`. -/
def NamesTag (tag : Tag) (o : Operation) : Prop :=
  o.address = Hex.ofBytes tag.1 ∨ o.address = "0x".toList ++ Hex.ofBytes tag.1

/-- A transaction that mints a reward. -/
def Mints (t : MeshTransaction) : Prop := ∃ o ∈ t.operations, o.kind = "REWARD".toList

instance : DecidablePred Pays := fun o => inferInstanceAs (Decidable (o.kind = _))
instance : DecidablePred IsFee := fun o => inferInstanceAs (Decidable (o.kind = _))
instance (tag : Tag) : DecidablePred (NamesTag tag) := fun o =>
  inferInstanceAs (Decidable (o.address = _ ∨ o.address = _))
instance : DecidablePred Mints := fun t => inferInstanceAs (Decidable (∃ o ∈ t.operations, o.kind = _))

/-- The transactions that mint nothing. -/
def unminted (ts : List MeshTransaction) : List MeshTransaction := ts.filter fun t => ¬ Mints t

theorem total_filter {p : Operation → Prop} [DecidablePred p] {q : Operation → Bool}
    (h : ∀ o, q o = true ↔ p o) (ops : List Operation) :
    total ((ops.filter q).map Operation.amount) = worth p ops := by
  induction ops with
  | nil => rfl
  | cons o ops ih =>
    unfold worth at ih ⊢
    rw [List.map_cons, List.sum_cons, ← ih]
    by_cases ho : p o
    · rw [List.filter_cons_of_pos ((h o).mpr ho), if_pos ho]
      rfl
    · rw [List.filter_cons_of_neg (ho ∘ (h o).mp), if_neg ho, Int.zero_add]

theorem worth_flatMap {p : Operation → Prop} [DecidablePred p] (ts : List MeshTransaction) :
    worth p (ts.flatMap MeshTransaction.operations) = (ts.map fun t => worth p t.operations).sum := by
  induction ts with
  | nil => rfl
  | cons t ts ih =>
    rw [List.map_cons, List.sum_cons, ← ih, List.flatMap_cons, worth, List.map_append, List.sum_append]
    rfl

theorem sum_unminted (f : MeshTransaction → ℤ) (ts : List MeshTransaction) :
    ((unminted ts).map f).sum = (ts.map fun t => if Mints t then 0 else f t).sum := by
  induction ts with
  | nil => rfl
  | cons t ts ih =>
    unfold unminted at ih ⊢
    rw [List.map_cons, List.sum_cons, ← ih]
    by_cases ht : Mints t
    · rw [List.filter_cons_of_neg (by simpa using ht), if_pos ht, Int.zero_add]
    · rw [List.filter_cons_of_pos (by simpa using ht), if_neg ht, List.map_cons, List.sum_cons]

theorem kind_iff {kind : Text} (o : Operation) : decide (o.kind = kind) = true ↔ o.kind = kind :=
  decide_eq_true_iff

theorem total_amountsOf (ops : List Operation) : total (amountsOf opDestination ops) = worth Pays ops ∧
    total (amountsOf opFee ops) = worth IsFee ops :=
  ⟨total_filter kind_iff ops, total_filter kind_iff ops⟩

theorem spendsOf_eq (block : MeshBlock) : spendsOf block = unminted block.transactions := by
  refine List.filter_congr fun t _ => ?_
  have hiff : isReward t = true ↔ Mints t := by
    unfold isReward
    simp only [List.any_eq_true, decide_eq_true_eq]
    rfl
  rw [Bool.eq_iff_iff, Bool.not_eq_true', ← Bool.not_eq_true, hiff, decide_eq_true_iff]

theorem touches_iff (tag : Tag) (o : Operation) : touches tag o = true ↔ NamesTag tag o := by
  have hx : ∀ rest : Text, hexPrefix ++ rest ≠ Hex.ofBytes tag.1 := by
    intro rest heq
    have hmem : 'x' ∈ Hex.ofBytes tag.1 := by
      rw [← heq]
      exact List.mem_append_left _ (by decide)
    exact absurd (Hex.isDigit_of_mem_ofBytes _ hmem) (by decide)
  unfold touches NamesTag addressBody
  rw [decide_eq_true_iff]
  by_cases hprefix : o.address.startsWith hexPrefix = true
  · obtain ⟨rest, hrest⟩ := Text.startsWith_iff.mp hprefix
    rw [hrest, Text.stripPrefix_append, Option.getD_some, or_iff_right (hx rest)]
    exact List.append_cancel_left_eq _ _ _ ▸ Iff.rfl
  · rw [Text.stripPrefix_eq_none hprefix, Option.getD_none, or_iff_left]
    intro heq
    exact hprefix (Text.startsWith_iff.mpr ⟨_, heq⟩)

/-! ## Where a figure stands -/

/-- The figures stand on the page in their order, each right after its label. -/
def Shows : List (Text × I128) → Text → Prop
  | [], _ => True
  | (label, v) :: figures, page =>
    ∃ before after, page = before ++ label ++ nanoAndMcm v ++ after ∧ Shows figures after

theorem Shows.prepend {figures : List (Text × I128)} {page : Text} (h : Shows figures page)
    (head : Text) : Shows figures (head ++ page) := by
  cases figures with
  | nil => trivial
  | cons f figures =>
    obtain ⟨before, after, rfl, h⟩ := h
    exact ⟨head ++ before, after, by simp only [List.append_assoc], h⟩

theorem Shows.figure {label : Text} {v : I128} {figures : List (Text × I128)} {after : Text}
    (h : Shows figures after) (before : Text) :
    Shows ((label, v) :: figures) (before ++ (label ++ (nanoAndMcm v ++ after))) :=
  ⟨before, after, by simp only [List.append_assoc], h⟩

/-- The rows of a page, one after the other, of which each shows its figure if it has one. -/
theorem shows_rows {ρ : Type} {figure : ρ → Option (Text × I128)} {row : ρ → Text}
    (hrow : ∀ r f, figure r = some f → ∃ before after, row r = before ++ f.1 ++ nanoAndMcm f.2 ++ after)
    (rows : List ρ) (foot : Text) : Shows (rows.filterMap figure) (rows.flatMap row ++ foot) := by
  induction rows with
  | nil => trivial
  | cons r rows ih =>
    rw [List.flatMap_cons, List.append_assoc]
    rcases hfigure : figure r with _ | f
    · rw [List.filterMap_cons_none hfigure]
      exact ih.prepend _
    · obtain ⟨before, after, hprints⟩ := hrow r f hfigure
      rw [List.filterMap_cons_some hfigure, hprints]
      exact ⟨before, after ++ (rows.flatMap row ++ foot), by simp only [List.append_assoc], ih.prepend after⟩

/-- What a row of a spend has before its sum: its id, and how many destinations it pays. -/
def paidLabel (indent : Text) (id : Digest) (t : MeshTransaction) : Text :=
  indent ++ Hex.ofBytes id.1 ++ "  ".toList ++ Text.ofNat (t.operations.countP fun o => Pays o) ++
    " destination(s)  ".toList

theorem sentLine_shows (indent : Text) (id : Digest) (t : MeshTransaction) (sent : I128) :
    sentLine indent id t sent = paidLabel indent id t ++ nanoAndMcm sent ++ "\n".toList := by
  have hcount : (amountsOf opDestination t.operations).length = t.operations.countP fun o => Pays o := by
    rw [amountsOf, List.length_map, ← List.countP_eq_length_filter]
    rfl
  rw [sentLine, paidLabel, hcount]

/-- The figures of a block's page: what it moved, its fees, and what each spend sent. -/
def blockFiguresOf (block : MeshBlock) (moved fees : I128) (sent : List I128) : List (Text × I128) :=
  ("\n  moved    ".toList, moved) :: ("\n  fees     ".toList, fees) ::
    ((unminted block.transactions).zip sent).map fun r => (paidLabel "    ".toList r.1.hash r.1, r.2)

theorem blockReport_shows (block : MeshBlock) (moved fees : I128) (sent : List I128) :
    Shows (blockFiguresOf block moved fees sent) (blockReport block moved fees sent).text := by
  let row (r : MeshTransaction × I128) : Text := sentLine "    ".toList r.1.hash r.1 r.2
  let figure (r : MeshTransaction × I128) : Text × I128 := (paidLabel "    ".toList r.1.hash r.1, r.2)
  have hrow : ∀ r f, some (figure r) = some f →
      ∃ before after, row r = before ++ f.1 ++ nanoAndMcm f.2 ++ after := by
    rintro r f ⟨⟩
    exact ⟨[], "\n".toList, by rw [List.nil_append]; exact sentLine_shows ..⟩
  have hrows := shows_rows hrow ((unminted block.transactions).zip sent)
    ("\n".toList ++ blockConvention ++ "\n".toList)
  rw [List.filterMap_eq_map'] at hrows
  have hnote : ("  (every destination of every non-reward transaction; the reward is newly minted, not moved, " ++
      "and is not counted)\n  fees     ").toList = ("  (every destination of every non-reward transaction; " ++
      "the reward is newly minted, not moved, and is not counted)").toList ++ "\n  fees     ".toList := by
    decide +kernel
  obtain ⟨head, hhead⟩ : ∃ head : Text, (blockReport block moved fees sent).text =
      head ++ "\n  moved    ".toList ++ nanoAndMcm moved ++
        ("  (every destination of every non-reward transaction; the reward is newly minted, not moved, " ++
          "and is not counted)\n  fees     ").toList ++ nanoAndMcm fees ++ "\n".toList ++
        ((spendsOf block).zip sent).flatMap row ++ "\n".toList ++ blockConvention ++ "\n".toList := ⟨_, rfl⟩
  have hfees : Shows (("\n  fees     ".toList, fees) :: _) _ := (hrows.prepend "\n".toList).figure
    ("  (every destination of every non-reward transaction; " ++
      "the reward is newly minted, not moved, and is not counted)").toList
  have hmoved : Shows (("\n  moved    ".toList, moved) :: _) _ := hfees.figure head
  rw [hhead, hnote, spendsOf_eq]
  simpa only [blockFiguresOf, List.append_assoc] using hmoved

/-- What a search's row has before its sum: its id, and which way it went. -/
def recentLabel (tag : Tag) (tx : MeshTransaction) : Text :=
  Hex.ofBytes tx.hash.1 ++ "  ".toList ++ Text.padRight 4 ' ' (direction tag tx) ++ "  ".toList

/-- The figures of a search's page: what each transaction touched the tag by. -/
def recentFiguresOf (tag : Tag) (page : SearchPage) (touched : List I128) : List (Text × I128) :=
  (page.transactions.zip touched).map fun r => (recentLabel tag r.1, r.2)

theorem recentReport_shows (tag : Tag) (shown : Text) (from' : UInt64) (page : SearchPage)
    (touched : List I128) :
    Shows (recentFiguresOf tag page touched) (recentReport tag shown from' page touched).text := by
  have hrow : ∀ (r : MeshTransaction × I128) f, some (recentLabel tag r.1, r.2) = some f →
      ∃ before after, recentRow tag r.1 r.2 = before ++ f.1 ++ nanoAndMcm f.2 ++ after := by
    rintro r f ⟨⟩
    obtain ⟨memo, hmemo⟩ : ∃ memo, recentRow tag r.1 r.2 =
        "  block ".toList ++ column 9 ((r.1.block.map ChainTip.index).getD 0) ++ "  ".toList ++
          Hex.ofBytes r.1.hash.1 ++ "  ".toList ++ Text.padRight 4 ' ' (direction tag r.1) ++ "  ".toList ++
          nanoAndMcm r.2 ++ "\n".toList ++ memo := ⟨_, rfl⟩
    refine ⟨"  block ".toList ++ column 9 ((r.1.block.map ChainTip.index).getD 0) ++ "  ".toList,
      "\n".toList ++ memo, hmemo.trans ?_⟩
    simp only [recentLabel, List.append_assoc]
  have hrows := shows_rows hrow (page.transactions.zip touched)
    (recentMore page ++ "\n".toList ++ searchConvention ++ "\n".toList)
  rw [List.filterMap_eq_map'] at hrows
  have htext : (recentReport tag shown from' page touched).text =
      recentHead shown from' page ++ recentNone from' page ++
        ((page.transactions.zip touched).flatMap (fun r => recentRow tag r.1 r.2) ++
          (recentMore page ++ "\n".toList ++ searchConvention ++ "\n".toList)) := by
    simp only [recentReport, Report.ok, List.append_assoc]
  rw [htext]
  exact hrows.prepend _

/-- The figures of the queue's page: what each transaction that was read sends. -/
def mempoolFiguresOf (rows : List MempoolRow) (sent : List (Option I128)) : List (Text × I128) :=
  (rows.zip sent).filterMap fun r =>
    r.1.transaction.bind fun t => r.2.map fun v => (paidLabel "  ".toList r.1.id t, v)

theorem mempoolReport_shows (count : UInt64) (queued : ℕ) (rows : List MempoolRow)
    (sent : List (Option I128)) :
    Shows (mempoolFiguresOf rows sent) (mempoolReport count queued rows sent).text := by
  have hrow : ∀ (r : MempoolRow × Option I128) f,
      (r.1.transaction.bind fun t => r.2.map fun v => (paidLabel "  ".toList r.1.id t, v)) = some f →
      ∃ before after, mempoolRow r.1 r.2 = before ++ f.1 ++ nanoAndMcm f.2 ++ after := by
    rintro ⟨⟨id, transaction⟩, sent⟩ f hf
    obtain ⟨t, rfl, hf⟩ := Option.bind_eq_some_iff.mp hf
    obtain ⟨v, rfl, rfl⟩ := Option.map_eq_some_iff.mp hf
    refine ⟨[], "\n".toList ++ operationLines t.operations "    ".toList, ?_⟩
    have hline := congrArg (· ++ operationLines t.operations "    ".toList)
      (sentLine_shows "  ".toList id t v)
    rw [List.nil_append, ← List.append_assoc]
    exact hline
  have hrows := shows_rows hrow (rows.zip sent)
    ((if rows.length < queued then
      "  ".toList ++ Text.ofNat (queued - rows.length) ++
        " more waiting, not read: this page reads the first ".toList ++ Text.ofNat count.toNat ++
        ", and --count reads up to ".toList ++ Text.ofNat maxCount ++ "\n".toList
    else []) ++ "\n".toList ++ mempoolConvention ++ "\n".toList)
  obtain ⟨head, hhead⟩ : ∃ head : Text, (mempoolReport count queued rows sent).text =
      head ++ (rows.zip sent).flatMap (fun r => mempoolRow r.1 r.2) ++
        (if rows.length < queued then
          "  ".toList ++ Text.ofNat (queued - rows.length) ++
            " more waiting, not read: this page reads the first ".toList ++ Text.ofNat count.toNat ++
            ", and --count reads up to ".toList ++ Text.ofNat maxCount ++ "\n".toList
        else []) ++ "\n".toList ++ mempoolConvention ++ "\n".toList := ⟨_, rfl⟩
  have hpage := hrows.prepend head
  rw [hhead]
  simpa only [mempoolFiguresOf, List.append_assoc] using hpage

/-! ## Sums of what is accepted -/

/-- As many amounts as a block's rows can hold, none longer than the cap. -/
theorem sum_of_bounded {l : List I128} (hlen : l.length ≤ maxRows * maxRows)
    (hdigits : ∀ a ∈ l, a.toInt.natAbs < 10 ^ maxDigits) :
    ∃ s, I128.sum l = some s ∧ s.toInt = total l := by
  have hrows : maxRows * maxRows = 16777216 := rfl
  have hb : ∀ a ∈ l, |a.toInt| ≤ 10 ^ maxDigits := fun a ha => by
    have hlt := hdigits a ha
    rw [Int.abs_eq_natAbs]
    exact_mod_cast hlt.le
  refine sum_eq hb ?_
  have hcast : (l.length : ℤ) ≤ 16777216 := by
    exact_mod_cast hrows ▸ hlen
  have hpow : (10 : ℤ) ^ maxDigits = 1000000000000000000000000000000 := by norm_num
  rw [hpow]
  omega

/-- The operations of some transactions, as many as their rows can hold. -/
theorem length_operations_le {ts : List MeshTransaction} (h : ∀ t ∈ ts, Mesh.Bounded t) :
    (ts.flatMap MeshTransaction.operations).length ≤ ts.length * maxRows := by
  induction ts with
  | nil => exact Nat.zero_le _
  | cons t ts ih =>
    rw [List.forall_mem_cons] at h
    have hrows := h.1.rows
    have htail := ih h.2
    rw [List.flatMap_cons, List.length_append, List.length_cons, Nat.succ_mul]
    omega

/-- The amounts of some of the operations of transactions that are accepted. -/
theorem sum_operations {ts : List MeshTransaction} (hlen : ts.length ≤ maxRows)
    (h : ∀ t ∈ ts, Mesh.Bounded t) (p : Operation → Bool) :
    ∃ s, I128.sum (((ts.flatMap MeshTransaction.operations).filter p).map Operation.amount) = some s ∧
      s.toInt = total (((ts.flatMap MeshTransaction.operations).filter p).map Operation.amount) := by
  refine sum_of_bounded ?_ fun a ha => ?_
  · rw [List.length_map]
    exact (List.length_filter_le _ _).trans
      ((length_operations_le h).trans (Nat.mul_le_mul_right _ hlen))
  · obtain ⟨o, ho, rfl⟩ := List.mem_map.mp ha
    obtain ⟨t, ht, ho⟩ := List.mem_flatMap.mp (List.mem_of_mem_filter ho)
    exact (h t ht).digits o ho

theorem sum_transaction {t : MeshTransaction} (h : Mesh.Bounded t) (p : Operation → Bool) :
    ∃ s, I128.sum ((t.operations.filter p).map Operation.amount) = some s ∧
      s.toInt = total ((t.operations.filter p).map Operation.amount) := by
  have hone : [t].flatMap MeshTransaction.operations = t.operations := List.flatMap_singleton _ _
  have hlen : [t].length ≤ maxRows := by
    rw [List.length_singleton]
    decide
  have hall : ∀ t' ∈ [t], Mesh.Bounded t' := by
    simpa only [List.forall_mem_singleton] using h
  have hsum := sum_operations hlen hall p
  rwa [hone] at hsum

/-! ## The pages -/

/-- What a transaction pays is summed as it is. -/
theorem sum_pays {t : MeshTransaction} (h : Mesh.Bounded t) :
    ∃ s, I128.sum (amountsOf opDestination t.operations) = some s ∧ s.toInt = worth Pays t.operations := by
  obtain ⟨s, hs, hint⟩ := sum_transaction h fun o => o.kind = opDestination
  exact ⟨s, hs, hint.trans (total_amountsOf t.operations).1⟩

theorem blockPage_exact {block : MeshBlock} (hlen : block.transactions.length ≤ maxRows)
    (h : ∀ t ∈ block.transactions, Mesh.Bounded t) : ∃ moved fees sent,
      blockPage block = some (blockReport block moved fees sent) ∧
        moved.toInt = (block.transactions.map fun t => if Mints t then 0 else worth Pays t.operations).sum ∧
        fees.toInt = (block.transactions.map fun t => worth IsFee t.operations).sum ∧
        sent.map toInt = (unminted block.transactions).map fun t => worth Pays t.operations := by
  have hspends : ∀ t ∈ spendsOf block, Mesh.Bounded t := fun t ht => h t (List.mem_of_mem_filter ht)
  obtain ⟨moved, hmoved, hmovedInt⟩ :=
    sum_operations ((List.length_filter_le _ _).trans hlen) hspends fun o => o.kind = opDestination
  obtain ⟨fees, hfees, hfeesInt⟩ := sum_operations hlen h fun o => o.kind = opFee
  obtain ⟨sent, hsent, hsentInt⟩ := exists_mapM fun t ht => sum_pays (hspends t ht)
  have hmoved' : I128.sum (movedOf block) = some moved := hmoved
  have hfees' : I128.sum (feesOf block) = some fees := hfees
  refine ⟨moved, fees, sent, ?_, ?_, ?_, ?_⟩
  · simp only [blockPage, hmoved', hfees', hsent, Option.bind_eq_bind, Option.bind_some]
  · rw [← sum_unminted, ← spendsOf_eq, ← worth_flatMap]
    exact hmovedInt.trans (total_amountsOf _).1
  · rw [← worth_flatMap]
    exact hfeesInt.trans (total_amountsOf _).2
  · rw [hsentInt, spendsOf_eq]

theorem recentTransactions_exact {page : SearchPage} (h : ∀ t ∈ page.transactions, Mesh.Bounded t)
    (tag : Tag) (from' : UInt64) : ∃ shown touched, destination tag = .ok shown ∧
      recentTransactions tag from' page = some (recentReport tag shown from' page touched) ∧
      touched.map toInt = page.transactions.map fun t => worth (NamesTag tag) t.operations := by
  obtain ⟨shown, hshown⟩ := tagToBase58_ok tag
  have hrows : ∀ t ∈ page.transactions, ∃ s, I128.sum (touching tag t) = some s ∧
      s.toInt = worth (NamesTag tag) t.operations := by
    intro t ht
    obtain ⟨s, hs, hint⟩ := sum_transaction (h t ht) (touches tag)
    exact ⟨s, hs, hint.trans (total_filter (touches_iff tag) t.operations)⟩
  obtain ⟨touched, htouched, hint⟩ := exists_mapM hrows
  refine ⟨shown, touched, hshown, ?_, hint⟩
  have hdestination : destination tag = .ok shown := hshown
  simp only [recentTransactions, hdestination, htouched, Option.bind_eq_bind, Option.bind_some]

theorem mempool_exact {rows : List MempoolRow}
    (h : ∀ row ∈ rows, ∀ t, row.transaction = some t → Mesh.Bounded t) (count : UInt64) (queued : ℕ) :
    ∃ sent, mempool count queued rows = some (mempoolReport count queued rows sent) ∧
      sent.map (Option.map toInt) = rows.map fun row =>
        row.transaction.map fun t => worth Pays t.operations := by
  have hrows : ∀ row ∈ rows, ∃ sent, rowSum row = some sent ∧
      sent.map toInt = row.transaction.map fun t => worth Pays t.operations := by
    intro row hrow
    unfold rowSum
    rcases htx : row.transaction with _ | t
    · exact ⟨none, rfl, rfl⟩
    · obtain ⟨s, hs, hint⟩ := sum_pays (h row hrow t htx)
      refine ⟨some s, ?_, congrArg some hint⟩
      show some <$> I128.sum (amountsOf opDestination t.operations) = some (some s)
      rw [hs]
      rfl
  obtain ⟨sent, hsent, hint⟩ := exists_mapM hrows
  refine ⟨sent, ?_, hint⟩
  rw [mempool, hsent]
  rfl

/-! ## What is printed of a figure -/

/-- An amount is printed as itself, and then with nine places as its share of an MCM. -/
theorem nanoAndMcm_reads (v : I128) : ∃ nano mcm : Text,
    nanoAndMcm v = nano ++ " nanoMCM (".toList ++ mcm ++ " MCM)".toList ∧
      nano = Text.ofInt v.toInt ∧ Decimal.readInt nano = some v.toInt ∧
      Decimal.readFixed mcm = some (v.toInt / 10 ^ 9 : ℚ) ∧
      ∃ whole frac, mcm = whole ++ '.' :: frac ∧ frac.length = 9 := by
  have hpow : nanoPerMcm = 10 ^ 9 := rfl
  have hplaces : 0 < 9 := by decide
  have hfrac := Decimal.length_fraction hplaces v.unsignedAbs
  unfold nanoAndMcm
  rw [hpow]
  by_cases hneg : v.toInt < 0
  · have habs : (v.unsignedAbs : ℤ) = -v.toInt := by
      rw [unsignedAbs]
      omega
    have hcast : (v.unsignedAbs : ℚ) = -v.toInt := by exact_mod_cast habs
    refine ⟨Text.ofInt v.toInt, '-' :: Decimal.fixed 9 v.unsignedAbs, ?_, rfl,
      Decimal.readInt_ofInt _, ?_, '-' :: Text.ofNat (v.unsignedAbs / 10 ^ 9), _, rfl, hfrac⟩
    · simp only [if_pos hneg, Text.ofInt, Decimal.fixed, unsignedAbs, List.append_assoc,
        List.cons_append, List.nil_append]
    · rw [Decimal.readFixed_minus hplaces, hcast, neg_div, neg_neg]
  · have habs : (v.unsignedAbs : ℤ) = v.toInt := by
      rw [unsignedAbs]
      omega
    have hcast : (v.unsignedAbs : ℚ) = v.toInt := by exact_mod_cast habs
    refine ⟨Text.ofInt v.toInt, Decimal.fixed 9 v.unsignedAbs, ?_, rfl,
      Decimal.readInt_ofInt _, ?_, _, _, rfl, hfrac⟩
    · simp only [if_neg hneg, Text.ofInt, Decimal.fixed, unsignedAbs, List.append_assoc,
        List.cons_append, List.nil_append]
    · rw [Decimal.readFixed_fixed hplaces, hcast]

/-- Whatever the codec accepts is shown, each sum at its label and that of the integers its operations'
texts spell: what a block moved is what its transactions that mint nothing pay, its fees those of them
all, and what touches a tag is of the operations that name it; and every figure is shown as what it is. -/
theorem explorer_figures_exact (read : Bytes → Option Json.Value) :
    (∀ bytes block, parseBlock read bytes = .ok block → ∃ moved fees sent,
      blockPage block = some (blockReport block moved fees sent) ∧
        moved.toInt = (block.transactions.map fun t => if Mints t then 0 else worth Pays t.operations).sum ∧
        fees.toInt = (block.transactions.map fun t => worth IsFee t.operations).sum ∧
        sent.map toInt = ((unminted block.transactions).map fun t => worth Pays t.operations) ∧
        Shows (blockFiguresOf block moved fees sent) (blockReport block moved fees sent).text) ∧
    (∀ bytes page tag from', parseSearch read bytes = .ok page → ∃ shown touched,
      destination tag = .ok shown ∧
        recentTransactions tag from' page = some (recentReport tag shown from' page touched) ∧
        touched.map toInt = (page.transactions.map fun t => worth (NamesTag tag) t.operations) ∧
        Shows (recentFiguresOf tag page touched) (recentReport tag shown from' page touched).text) ∧
    (∀ count queued rows, (∀ row ∈ rows, ∀ t, row.transaction = some t →
        ∃ bytes, parseMempoolTransaction read bytes = .ok t) →
      ∃ sent, mempool count queued rows = some (mempoolReport count queued rows sent) ∧
        (sent.map (Option.map toInt) = rows.map fun row =>
          row.transaction.map fun t => worth Pays t.operations) ∧
        Shows (mempoolFiguresOf rows sent) (mempoolReport count queued rows sent).text) ∧
    (∀ op o, parseOperation op = .ok o →
      ∃ s, amountText op = some s ∧ Decimal.readInt s = some o.amount.toInt) ∧
    ∀ v : I128, ∃ nano mcm : Text,
      nanoAndMcm v = nano ++ " nanoMCM (".toList ++ mcm ++ " MCM)".toList ∧
        nano = Text.ofInt v.toInt ∧ Decimal.readInt nano = some v.toInt ∧
        Decimal.readFixed mcm = some (v.toInt / 10 ^ 9 : ℚ) ∧
        ∃ whole frac, mcm = whole ++ '.' :: frac ∧ frac.length = 9 := by
  refine ⟨fun bytes block h => ?_, fun bytes page tag from' h => ?_, fun count queued rows h => ?_,
    fun op o h => ?_, nanoAndMcm_reads⟩
  · obtain ⟨hlen, hbounded⟩ := bounded_of_parseBlock h
    obtain ⟨moved, fees, sent, hpage, hmoved, hfees, hsent⟩ := blockPage_exact hlen hbounded
    exact ⟨moved, fees, sent, hpage, hmoved, hfees, hsent, blockReport_shows ..⟩
  · obtain ⟨shown, touched, hshown, hpage, htouched⟩ :=
      recentTransactions_exact (bounded_of_parseSearch h) tag from'
    exact ⟨shown, touched, hshown, hpage, htouched, recentReport_shows ..⟩
  · have hbounded : ∀ row ∈ rows, ∀ t, row.transaction = some t → Mesh.Bounded t := by
      intro row hrow t ht
      obtain ⟨bytes, hbytes⟩ := h row hrow t ht
      exact bounded_of_parseMempoolTransaction hbytes
    obtain ⟨sent, hpage, hsent⟩ := mempool_exact hbounded count queued
    exact ⟨sent, hpage, hsent, mempoolReport_shows ..⟩
  · obtain ⟨s, hs, hspells⟩ := spells_of_parseOperation h
    exact ⟨s, hs, hspells.value⟩

/-! ## A block that pays, takes a fee and mints -/

def zeroHash : Json.Value := .string ("0x".toList ++ List.replicate 64 '0')

def zeroTip : Json.Value := .object [("index".toList, .number (.posInt 7)), ("hash".toList, zeroHash)]

def zeroTag : Json.Value := .string ("0x".toList ++ List.replicate 40 '0')

def operationJson (kind : Text) (address : Json.Value) (amount : Text) : Json.Value := .object
  [("operation_identifier".toList, .object [("index".toList, .number (.posInt 0))]),
    ("type".toList, .string kind), ("account".toList, .object [("address".toList, address)]),
    ("amount".toList, .object [("value".toList, .string amount)])]

def transactionJson (operations : List Json.Value) : Json.Value := .object
  [("transaction_identifier".toList, .object [("hash".toList, zeroHash)]),
    ("block_identifier".toList, zeroTip), ("timestamp".toList, .number (.posInt 0)),
    ("operations".toList, .array operations)]

/-- Two payments of the most digits, one of them to the tag of zeros, and a fee. -/
def paidTwice : Json.Value := transactionJson
  [operationJson opDestination zeroTag (List.replicate 30 '9'),
    operationJson opDestination zeroHash (List.replicate 30 '9'), operationJson opFee zeroHash "1000".toList]

/-- A reward, beside a payment that is none of a spend's, and a fee that counts. -/
def minted : Json.Value := transactionJson
  [operationJson opReward zeroTag "5".toList, operationJson opDestination zeroTag "-2".toList,
    operationJson opFee zeroHash "7".toList]

/-- One body that is a block and a search's page. -/
def mintedAndPaid : Json.Value := .object
  [("block".toList, .object
    [("block_identifier".toList, zeroTip), ("parent_block_identifier".toList, zeroTip),
      ("timestamp".toList, .number (.posInt 0)), ("transactions".toList, .array [minted, paidTwice])]),
    ("transactions".toList, .array [minted, paidTwice]), ("total_count".toList, .number (.posInt 2))]

/-- Amounts of the most digits are summed as they are, and each figure has the operations it is of. -/
theorem explorer_figures_exact_mintedAndPaid :
    (∃ block moved fees sent, parseBlock (fun _ => some mintedAndPaid) [] = .ok block ∧
      blockPage block = some (blockReport block moved fees sent) ∧ moved.toInt = 2 * (10 ^ 30 - 1) ∧
        fees.toInt = 1007 ∧ sent.map toInt = [2 * (10 ^ 30 - 1)]) ∧
    ∃ page shown touched, parseSearch (fun _ => some mintedAndPaid) [] = .ok page ∧
      recentTransactions (.zero addrTagLen) 0 page =
        some (recentReport (.zero addrTagLen) shown 0 page touched) ∧
      touched.map toInt = [3, 10 ^ 30 - 1] := by
  obtain ⟨hblocks, hpages, -⟩ := explorer_figures_exact fun _ => some mintedAndPaid
  have hblock : ∃ block, parseBlock (fun _ => some mintedAndPaid) [] = .ok block ∧
      (block.transactions.map fun t => if Mints t then 0 else worth Pays t.operations).sum =
        2 * (10 ^ 30 - 1) ∧
      (block.transactions.map fun t => worth IsFee t.operations).sum = 1007 ∧
      (unminted block.transactions).map (fun t => worth Pays t.operations) = [2 * (10 ^ 30 - 1)] :=
    ⟨_, rfl, by decide +kernel, by decide +kernel, by decide +kernel⟩
  have hpage : ∃ page, parseSearch (fun _ => some mintedAndPaid) [] = .ok page ∧
      (page.transactions.map fun t => worth (NamesTag (.zero addrTagLen)) t.operations) =
        [3, 10 ^ 30 - 1] := ⟨_, rfl, by decide +kernel⟩
  obtain ⟨block, hblock, hmoved, hfees, hsent⟩ := hblock
  obtain ⟨moved, fees, sent, hpages', hmoved', hfees', hsent', -⟩ := hblocks [] block hblock
  obtain ⟨page, hpage, htouched⟩ := hpage
  obtain ⟨shown, touched, -, hrecent, htouched', -⟩ := hpages [] page (.zero addrTagLen) 0 hpage
  exact ⟨⟨block, moved, fees, sent, hblock, hpages', hmoved'.trans hmoved, hfees'.trans hfees,
    hsent'.trans hsent⟩, page, shown, touched, hpage, hrecent, htouched'.trans htouched⟩

end MochimoWallet.Cli
