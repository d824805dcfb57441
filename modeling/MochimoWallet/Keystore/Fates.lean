import MochimoWallet.Keystore.Medium

/-!
# A commit, from what becomes of its steps

`steps_cases` says what a commit can leave. Here the fates of its four steps are read
off: the image is at the snapshot's name from the step that renames it on
(`Fate.installs`), whether that step and the one after it return or not, and the
commit returns exactly if all four do (`steps_fates`).
-/

namespace MochimoWallet.Keystore

open Codec

namespace Fate

/-- What becomes of the next step: steps without a fate return. -/
def next : List Fate → Fate
  | [] => .done
  | fate :: _ => fate

def isDone : Fate → Bool
  | .done => true
  | _ => false

/-- Whether the step took effect. -/
def took : Fate → Bool
  | .done => true
  | .failed took .. | .killed took _ => took

/-- The next `n` steps return. -/
def clean : ℕ → List Fate → Bool
  | 0, _ => true
  | n + 1, fates => (next fates).isDone && clean n fates.tail

/-- One of the next `n` steps fails, and every one before it returns. -/
def failsIn : ℕ → List Fate → Bool
  | 0, _ => false
  | n + 1, fates =>
    match next fates with
    | .done => failsIn n fates.tail
    | .failed .. => true
    | .killed .. => false

/-- The commit that comes next gets as far as its rename, and that takes effect. -/
def installs (fates : List Fate) : Bool :=
  clean 2 fates && (next fates.tail.tail).took

theorem clean_succ {n : ℕ} {fates : List Fate} :
    clean (n + 1) fates = true ↔ next fates = .done ∧ clean n fates.tail = true := by
  rw [clean, Bool.and_eq_true]
  cases next fates <;> simp [isDone]

theorem clean_add (m n : ℕ) (fates : List Fate) :
    clean (m + n) fates = (clean m fates && clean n (fates.drop m)) := by
  induction m generalizing fates with
  | zero => simp [clean]
  | succ m ih =>
    rw [Nat.succ_add, clean, clean, ih, Bool.and_assoc, List.drop_tail]

/-- Steps that all return have none that fails. -/
theorem failsIn_of_clean {n : ℕ} {fates : List Fate} (h : clean n fates = true) :
    failsIn n fates = false := by
  induction n generalizing fates with
  | zero => rfl
  | succ n ih =>
    obtain ⟨hhead, htail⟩ := clean_succ.mp h
    rw [failsIn, hhead]
    exact ih htail

theorem installs_of_clean {fates : List Fate} (h : clean 4 fates = true) : installs fates = true := by
  obtain ⟨h0, h⟩ := clean_succ.mp h
  obtain ⟨h1, h⟩ := clean_succ.mp h
  obtain ⟨h2, -⟩ := clean_succ.mp h
  simp [installs, clean, isDone, h0, h1, h2, took]

theorem failsIn_add (m n : ℕ) (fates : List Fate) :
    failsIn (m + n) fates = (failsIn m fates || (clean m fates && failsIn n (fates.drop m))) := by
  induction m generalizing fates with
  | zero => simp [clean, failsIn]
  | succ m ih =>
    rw [Nat.succ_add, failsIn, failsIn, clean]
    cases next fates with
    | done => simp only [ih, isDone, Bool.true_and, List.drop_tail]
    | failed => rfl
    | killed => rfl

end Fate

/-- One step, from its fate. -/
theorem mediumStep_eq {α : Type} (call : MediumCall) (a : α) (effect : Disk → Disk)
    (short : Option Bytes → Disk → Disk) (m : UnixMedium) :
    mediumStep call a effect short m = match Fate.next m.fates with
      | .done => (.ok a, ⟨effect m.disk, m.fates.tail, m.calls ++ [call]⟩)
      | .failed took left e =>
        (.err e, ⟨if took then effect m.disk else short left m.disk, m.fates.tail,
          m.calls ++ [call]⟩)
      | .killed took left =>
        (.killed, ⟨if took then effect m.disk else short left m.disk, m.fates.tail,
          m.calls ++ [call]⟩) := by
  unfold mediumStep
  rcases m.fates with _ | ⟨_ | _ | _, fates⟩ <;> rfl

/-- How a commit ends and what it leaves of the directory's entry, from the fates of its steps. -/
structure StepsEnd (image : Bytes) (m m' : UnixMedium) (r : Reply Error Unit) : Prop where
  snapshot : m'.disk.snapshot = if Fate.installs m.fates then some image else m.disk.snapshot
  ok : r = .ok () ↔ Fate.clean 4 m.fates
  err : (∃ e, r = .err e) ↔ Fate.failsIn 4 m.fates
  fates : r = .ok () → m'.fates = m.fates.drop 4

theorem steps_fates {image : Bytes} {m m' : UnixMedium} {r : Reply Error Unit}
    (h : Layout.steps image m = (r, m')) : StepsEnd image m m' r := by
  have hdrop : m.fates.tail.tail.tail.tail = m.fates.drop 4 := by
    rcases m.fates with _ | ⟨_, _ | ⟨_, _ | ⟨_, _ | ⟨_, _⟩⟩⟩⟩ <;> rfl
  simp only [Layout.steps, Call.bind_apply, writeTemp, fsyncFile, rename, fsyncDir,
    mediumStep_eq] at h
  rcases h0 : Fate.next m.fates with _ | ⟨_ | _, left, e⟩ | ⟨_ | _, left⟩ <;>
    simp only [h0] at h
  · rcases h1 : Fate.next m.fates.tail with _ | ⟨took, left, e⟩ | ⟨took, left⟩ <;>
      simp only [h1] at h
    · rcases h2 : Fate.next m.fates.tail.tail with _ | ⟨_ | _, left, e⟩ | ⟨_ | _, left⟩ <;>
        simp only [h2] at h
      · rcases h3 : Fate.next m.fates.tail.tail.tail with _ | ⟨_ | _, left, e⟩ | ⟨_ | _, left⟩ <;>
          simp only [h3] at h <;> cases h <;>
          constructor <;>
          simp [Fate.installs, Fate.clean, Fate.failsIn, Fate.took, Fate.isDone, h0, h1, h2, h3, hdrop]
      all_goals
        cases h
        constructor <;>
          simp [Fate.installs, Fate.clean, Fate.failsIn, Fate.took, Fate.isDone, h0, h1, h2]
    all_goals
      cases h
      constructor <;>
        simp [Fate.installs, Fate.clean, Fate.failsIn, Fate.took, Fate.isDone, h0, h1]
  all_goals
    cases h
    constructor <;>
      simp [Fate.installs, Fate.clean, Fate.failsIn, Fate.took, Fate.isDone, h0]

/-! ## Sequences of steps -/

/-- A call that takes `n` steps of the medium, one after the other, and ends as they do. -/
structure Spans {ε α : Type} (n : ℕ) (fates fates' : List Fate) (r : Reply ε α) : Prop where
  ok : (∃ a, r = .ok a) ↔ Fate.clean n fates
  err : (∃ e, r = .err e) ↔ Fate.failsIn n fates
  rest : (∃ a, r = .ok a) → fates' = fates.drop n

namespace Spans

variable {ε δ α β : Type} {m n : ℕ} {fates fates' fates'' : List Fate}

theorem next {a : α} {r : Reply δ β} (h : Spans m fates fates' (.ok a : Reply ε α))
    (h' : Spans n fates' fates'' r) : Spans (m + n) fates fates'' r := by
  have hclean := h.ok.mp ⟨a, rfl⟩
  obtain rfl := h.rest ⟨a, rfl⟩
  refine ⟨?_, ?_, fun hr => ?_⟩
  · rw [h'.ok, Fate.clean_add, hclean, Bool.true_and]
  · rw [h'.err, Fate.failsIn_add, hclean, Fate.failsIn_of_clean hclean, Bool.true_and, Bool.false_or]
  · rw [h'.rest hr, List.drop_drop]

theorem not_clean {r : Reply ε α} (h : Spans m fates fates' r) (hr : ∀ a, r ≠ .ok a) :
    Fate.clean m fates = false := by
  rw [Bool.eq_false_iff, ne_eq, ← h.ok]
  rintro ⟨a, ha⟩
  exact hr a ha

theorem refused {e : ε} (h : Spans m fates fates' (.err e : Reply ε α)) (e' : δ) (n : ℕ) :
    Spans (m + n) fates fates'' (.err e' : Reply δ β) := by
  have hclean := h.not_clean (by simp)
  have hfails := h.err.mp ⟨e, rfl⟩
  refine ⟨?_, ?_, ?_⟩
  · simp [Fate.clean_add, hclean]
  · simp [Fate.failsIn_add, hfails]
  · rintro ⟨a, ha⟩
    cases ha

theorem killed (h : Spans m fates fates' (.killed : Reply ε α)) (n : ℕ) :
    Spans (m + n) fates fates'' (.killed : Reply δ β) := by
  have hclean := h.not_clean (by simp)
  have hfails : ¬ Fate.failsIn m fates = true := fun hfails => by
    obtain ⟨e, he⟩ := h.err.mpr hfails
    cases he
  refine ⟨?_, ?_, ?_⟩
  · simp [Fate.clean_add, hclean]
  · simp [Fate.failsIn_add, hclean, hfails]
  · rintro ⟨a, ha⟩
    cases ha

/-- Only the kind of the ending counts. -/
theorem congr_reply {r : Reply ε α} {r' : Reply δ β} (hok : (∃ b, r' = .ok b) ↔ ∃ a, r = .ok a)
    (herr : (∃ e, r' = .err e) ↔ ∃ e, r = .err e) :
    Spans n fates fates' r' ↔ Spans n fates fates' r :=
  ⟨fun h => ⟨hok.symm.trans h.ok, herr.symm.trans h.err, fun hr => h.rest (hok.mpr hr)⟩,
    fun h => ⟨hok.trans h.ok, herr.trans h.err, fun hr => h.rest (hok.mp hr)⟩⟩

theorem map_iff {r : Reply ε α} {f : α → β} :
    Spans n fates fates' (r.map f) ↔ Spans n fates fates' r :=
  congr_reply (by cases r <;> simp [Reply.map]) (by cases r <;> simp [Reply.map])

theorem mapErr_iff {r : Reply ε α} {f : ε → δ} :
    Spans n fates fates' (r.mapErr f) ↔ Spans n fates fates' r :=
  congr_reply (by cases r <;> simp [Reply.mapErr]) (by cases r <;> simp [Reply.mapErr])

end Spans

theorem mediumStep_spans {α : Type} {call : MediumCall} {a : α} {effect : Disk → Disk}
    {short : Option Bytes → Disk → Disk} {m m' : UnixMedium} {r : Reply Error α}
    (h : mediumStep call a effect short m = (r, m')) : Spans 1 m.fates m'.fates r := by
  rw [mediumStep_eq] at h
  rcases hnext : Fate.next m.fates with _ | ⟨took, left, e⟩ | ⟨took, left⟩ <;> rw [hnext] at h <;>
    cases h <;> constructor <;> simp [Fate.clean, Fate.failsIn, Fate.isDone, hnext]

theorem steps_spans {image : Bytes} {m m' : UnixMedium} {r : Reply Error Unit}
    (h : Layout.steps image m = (r, m')) : Spans 4 m.fates m'.fates r :=
  have hend := steps_fates h
  ⟨⟨fun ⟨_, hr⟩ => hend.ok.mp hr, fun hclean => ⟨_, hend.ok.mpr hclean⟩⟩, hend.err,
    fun ⟨_, hr⟩ => hend.fates hr⟩

end MochimoWallet.Keystore
