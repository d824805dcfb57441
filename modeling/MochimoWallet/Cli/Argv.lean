import MochimoWallet.Cli.TagArg

/-!
# Every token counts

What follows a verb is its positional arguments, its flags and the values of those, with no token
left over and no flag given twice: `Verb.forms` lists the shapes a verb is documented to take. So no
token can be added to a line that has been read without its being refused or asking for something
else. `transaction` and `block` read their first token only and are the exceptions
(`every_token_counts_iff`).
-/

namespace MochimoWallet.Cli

open Codec

/-! ## Flags and their values -/

/-- The names of the flags, where every token is the name of one or its value. -/
def flagNames (valued bare : List Text) : List Text → Option (List Text)
  | [] => some []
  | a :: it =>
    if bare.contains a then (flagNames valued bare it).map (a :: ·)
    else if valued.contains a then
      match it with
      | [] => none
      | _ :: it => (flagNames valued bare it).map (a :: ·)
    else none

theorem flagNames_cons {valued bare : List Text} {a : Text} {it : List Text} :
    flagNames valued bare (a :: it) =
      if a ∈ bare then (flagNames valued bare it).map (a :: ·)
      else if a ∈ valued then it.tail?.bind fun it => (flagNames valued bare it).map (a :: ·)
      else none := by
  simp only [← List.contains_iff_mem]
  cases it <;> rfl

/-- One name more, which was not seen. -/
theorem fresh_cons {found : Option (List Text)} {seen : List Text} {a : Text} (ha : a ∉ seen) :
    (∃ names, found = some names ∧ names.Nodup ∧ ∀ n ∈ names, n ∉ seen ++ [a]) ↔
      ∃ names, found.map (a :: ·) = some names ∧ names.Nodup ∧ ∀ n ∈ names, n ∉ seen := by
  constructor
  · rintro ⟨names, rfl, hnodup, hout⟩
    refine ⟨a :: names, rfl, List.nodup_cons.mpr ⟨fun hmem => ?_, hnodup⟩, fun n hn => ?_⟩
    · exact hout a hmem (by simp)
    · rcases List.mem_cons.mp hn with rfl | hn
      · exact ha
      · exact fun hs => hout n hn (List.mem_append_left _ hs)
  · rintro ⟨names, hnames, hnodup, hout⟩
    obtain ⟨more, rfl, rfl⟩ := Option.map_eq_some_iff.mp hnames
    obtain ⟨hnot, hnodup⟩ := List.nodup_cons.mp hnodup
    refine ⟨more, rfl, hnodup, fun n hn hs => ?_⟩
    rcases List.mem_append.mp hs with hs | hs
    · exact hout n (List.mem_cons_of_mem _ hn) hs
    · rw [List.mem_singleton] at hs
      exact hnot (hs ▸ hn)

/-- What passes is flags and their values, none given twice and none seen before. -/
theorem rejectFlags_eq_ok {valued bare seen rest : List Text} :
    rejectFlags valued bare seen rest = .ok () ↔ ∃ names,
      flagNames valued bare rest = some names ∧ names.Nodup ∧ ∀ n ∈ names, n ∉ seen := by
  fun_induction rejectFlags valued bare seen rest with
  | case1 seen => simp [flagNames]
  | case2 seen a it hunknown => simp [flagNames_cons, hunknown]
  | case3 seen a it hknown hseen =>
    refine iff_of_false (fun h => by cases h) ?_
    rintro ⟨names, hnames, -, hfresh⟩
    have hmem : a ∈ names := by
      rw [flagNames_cons] at hnames
      split_ifs at hnames
      · obtain ⟨more, -, rfl⟩ := Option.map_eq_some_iff.mp hnames
        exact List.mem_cons_self
      · obtain ⟨it, -, hnames⟩ := Option.bind_eq_some_iff.mp hnames
        obtain ⟨more, -, rfl⟩ := Option.map_eq_some_iff.mp hnames
        exact List.mem_cons_self
    exact hfresh a hmem hseen
  | case4 seen a it hknown hfresh hbare ih =>
    rw [ih, flagNames_cons, if_pos hbare]
    exact fresh_cons hfresh
  | case5 seen a hknown hfresh hbare =>
    refine iff_of_false (fun h => by cases h) ?_
    rintro ⟨names, hnames, -⟩
    simp [flagNames_cons, hbare] at hnames
  | case6 seen a hknown hfresh hbare v it ih =>
    have hvalued : a ∈ valued := by
      by_contra hnot
      exact hknown ⟨hbare, hnot⟩
    rw [ih, flagNames_cons, if_neg hbare, if_pos hvalued]
    exact fresh_cons hfresh

/-- A tail that is flags, each known and none given twice. -/
theorem rejectUnknownFlags_eq_ok {rest valued bare : List Text} :
    rejectUnknownFlags rest valued bare = .ok () ↔ ∃ names,
      flagNames valued bare rest = some names ∧ names.Nodup := by
  rw [rejectUnknownFlags, rejectFlags_eq_ok]
  simp

/-- Flags with values come in pairs. -/
theorem length_of_flagNames {valued rest names : List Text}
    (h : flagNames valued [] rest = some names) : rest.length = 2 * names.length := by
  fun_induction flagNames valued [] rest generalizing names with
  | case1 => cases h; rfl
  | case2 a it hbare ih => cases hbare
  | case3 a hbare hvalued => cases h
  | case4 a hbare hvalued v it ih =>
    obtain ⟨more, hmore, rfl⟩ := Option.map_eq_some_iff.mp h
    have hlen := ih hmore
    simp only [List.length_cons, hlen]
    omega
  | case5 a it hbare hvalued => cases h

/-! ## The shapes a verb takes -/

/-- So many positional arguments, and then flags. -/
structure Form where
  takes : ℕ → Bool
  valued : List Text
  bare : List Text

/-- A tail of that shape: each token is a positional argument, a flag or a flag's value, and no flag
is given twice. -/
def Form.Accounts (f : Form) (rest : List Text) : Prop :=
  ∃ positionals flags names, rest = positionals ++ flags ∧ f.takes positionals.length = true ∧
    (∀ p ∈ positionals, p.startsWith dashes = false) ∧
    flagNames f.valued f.bare flags = some names ∧ names.Nodup

theorem Form.accounts_of_flags {f : Form} {p flags : List Text}
    (htakes : f.takes p.length = true) (hplain : ∀ a ∈ p, a.startsWith dashes = false)
    (hflags : rejectUnknownFlags flags f.valued f.bare = .ok ()) : f.Accounts (p ++ flags) := by
  obtain ⟨names, hnames, hnodup⟩ := rejectUnknownFlags_eq_ok.mp hflags
  exact ⟨p, flags, names, rfl, htakes, hplain, hnames, hnodup⟩

theorem Form.accounts_of_plain {f : Form} {p : List Text} (htakes : f.takes p.length = true)
    (hplain : ∀ a ∈ p, a.startsWith dashes = false) : f.Accounts p :=
  ⟨p, [], [], (List.append_nil _).symm, htakes, hplain, rfl, List.nodup_nil⟩

/-- The shapes the help gives each verb. -/
def Verb.forms : Verb → List Form
  | .balance => [⟨(· = 0), [], []⟩]
  | .create => [⟨(· = 0), [], [fromPhraseFlag]⟩]
  | .address => [⟨(· ≤ 1), [], []⟩, ⟨(· = 0), [accountFlag], []⟩]
  | .status => [⟨(· = 1), [scanToFlag], []⟩]
  | .settle | .transaction | .block | .submit => [⟨(· = 1), [], []⟩]
  | .send | .resign => [⟨fun n => n % 2 = 1 && 3 ≤ n, [feeFlag, btlFlag, refFlag], []⟩,
      ⟨(· = 1), [destinationsFlag, feeFlag, btlFlag], []⟩]
  | .recentTransactions => [⟨(· = 1), [countFlagName, fromFlagName], []⟩]
  | .blocks | .mempool => [⟨(· = 0), [countFlagName], []⟩]
  | .discover => [⟨(· = 0), [toFlag], []⟩]
  | .reconcile => [⟨(· = 1), [advanceToFlag], []⟩]
  | .restore => [⟨(· = 0), [accountFlag, scanToFlag], []⟩]

def Verb.Accounts (v : Verb) (rest : List Text) : Prop := ∃ f ∈ v.forms, f.Accounts rest

/-! ## Positional arguments -/

theorem mem_trim {t : Text} {c : Char} (hc : c ∈ t) (hplain : Text.isWhitespace c = false) :
    c ∈ t.trim := by
  have hdrop : ∀ l : Text, c ∈ l → c ∈ l.dropWhile Text.isWhitespace := by
    intro l hl
    rw [← List.takeWhile_append_dropWhile (p := Text.isWhitespace) (l := l)] at hl
    refine (List.mem_append.mp hl).resolve_left fun htake => ?_
    have hwhite := List.mem_takeWhile_imp htake
    rw [hplain] at hwhite
    cases hwhite
  rw [Text.trim, Text.trimEnd, List.rdropWhile, List.mem_reverse]
  exact hdrop _ (List.mem_reverse.mpr (hdrop t hc))

/-- No tag is typed like a flag. -/
theorem tagFromText_plain {s : Text} {what : String} {tag : Tag} (h : tagFromText s what = .ok tag) :
    s.startsWith dashes = false := by
  rw [Bool.eq_false_iff]
  intro hdashes
  obtain ⟨r, rfl⟩ := Text.startsWith_iff.mp hdashes
  have hdash : '-' ∈ Text.trim (dashes ++ r) := mem_trim (by simp [dashes]) (by decide)
  rcases (tagFromText_eq_ok h).2 with hbase | ⟨body, hbody, hdigits, -⟩
  · have hread := tagFromBase58_eq_ok.mpr hbase
    have hreject : base58Decode (Text.trim (dashes ++ r)).utf8 = .error base58Reject := by
      refine base58Decode_reject_iff.mpr (.inr ⟨0x2D, ?_, by decide⟩)
      exact List.mem_flatMap.mpr ⟨'-', hdash, by decide⟩
    unfold tagFromBase58 at hread
    rw [hreject] at hread
    dsimp only at hread
    split_ifs at hread
  · rw [hbody] at hdash
    rcases List.mem_append.mp hdash with hx | hbody
    · exact absurd hx (by decide)
    · exact absurd (hdigits.2 _ hbody) (by decide)

theorem leadingTag_eq_ok {rest : List Text} {verb : Text} {tag : Tag}
    (h : leadingTag rest verb = .ok tag) : ∃ t, rest = t :: rest.tail ∧ t.startsWith dashes = false := by
  unfold leadingTag at h
  split at h
  · rename_i t more
    split_ifs at h with hplain
    exact ⟨t, rfl, by simpa using hplain⟩
  · cases h

theorem tagArg_eq_ok {rest : List Text} {verb : Text} {tag : Tag} (h : tagArg rest verb = .ok tag) :
    ∃ t, rest = [t] ∧ t.startsWith dashes = false := by
  unfold tagArg at h
  split at h
  · rename_i t
    exact ⟨t, rfl, tagFromText_plain h⟩
  · cases h
  · cases h

theorem optionalTagArg_eq_ok {rest : List Text} {verb : Text} {tag : Option Tag}
    (h : optionalTagArg rest verb = .ok tag) :
    (rest = [] ∧ tag = none) ∨ ∃ t, rest = [t] ∧ t.startsWith dashes = false ∧ tag ≠ none := by
  unfold optionalTagArg at h
  split at h
  · cases h
    exact .inl ⟨rfl, rfl⟩
  · rename_i t
    obtain ⟨tag, htag, h⟩ := bind_eq_ok.mp h
    cases h
    exact .inr ⟨t, rfl, tagFromText_plain htag, by simp⟩
  · cases h

theorem artifactArg_eq_ok {rest : List Text} {verb artifact : Text}
    (h : artifactArg rest verb = .ok artifact) :
    rest = [artifact] ∧ artifact.startsWith dashes = false := by
  unfold artifactArg at h
  split at h
  · split_ifs at h with hflag hmore
    cases h
    exact ⟨by rw [hmore], by simpa using hflag⟩
  · cases h

theorem hashArg_eq_ok {arg : Option Text} {verb : Text} {hash : Block hashLen}
    (h : hashArg arg verb = .ok hash) : ∃ t, arg = some t ∧ t.startsWith dashes = false := by
  unfold hashArg at h
  split at h
  · cases h
  · rename_i t
    refine ⟨t, rfl, Bool.eq_false_iff.mpr fun hdashes => ?_⟩
    obtain ⟨r, rfl⟩ := Text.startsWith_iff.mp hdashes
    have hbody : ((dashes ++ r).stripPrefix hexPrefix).getD (dashes ++ r) = dashes ++ r := by
      rw [Text.stripPrefix_eq_none (by simp [Text.startsWith, dashes, hexPrefix]), Option.getD_none]
    dsimp only at h
    rw [hbody] at h
    have hnot : (dashes ++ r).all Hex.isDigit = false := by simp [dashes, Hex.isDigit, Hex.digit]
    simp [hnot] at h

theorem blockAt_eq_ok {arg : Option Text} {place : BlockAt} (h : blockAt arg = .ok place) :
    ∃ t, arg = some t ∧ t.startsWith dashes = false := by
  unfold blockAt at h
  split at h
  · cases h
  · rename_i t
    split_ifs at h with hdigits
    · refine ⟨t, rfl, Bool.eq_false_iff.mpr fun hdashes => ?_⟩
      obtain ⟨r, rfl⟩ := Text.startsWith_iff.mp hdashes
      simp [dashes] at hdigits
    · obtain ⟨hash, hhash, -⟩ := bind_eq_ok.mp h
      exact hashArg_eq_ok hhash

/-! ## Spends -/

/-- Names that do not occur make no difference. -/
theorem flagNames_congr {valued valued' bare rest : List Text}
    (h : ∀ a ∈ rest, a ∈ valued ↔ a ∈ valued') :
    flagNames valued bare rest = flagNames valued' bare rest := by
  fun_induction flagNames valued bare rest with
  | case1 => rfl
  | case2 a it hbare ih =>
    rw [List.contains_iff_mem] at hbare
    rw [flagNames_cons, if_pos hbare, ih fun b hb => h b (List.mem_cons_of_mem _ hb)]
  | case3 a hbare hvalued =>
    rw [List.contains_iff_mem] at hbare hvalued
    rw [flagNames_cons, if_neg hbare, if_pos ((h a List.mem_cons_self).mp hvalued)]
    rfl
  | case4 a hbare hvalued v it ih =>
    rw [List.contains_iff_mem] at hbare hvalued
    rw [flagNames_cons, if_neg hbare, if_pos ((h a List.mem_cons_self).mp hvalued),
      ih fun b hb => h b (List.mem_cons_of_mem _ (List.mem_cons_of_mem _ hb))]
    rfl
  | case5 a it hbare hvalued =>
    rw [List.contains_iff_mem] at hbare hvalued
    rw [flagNames_cons, if_neg hbare, if_neg fun hv => hvalued ((h a List.mem_cons_self).mpr hv)]

theorem textFlag_eq_none {rest : List Text} {name : Text} (h : textFlag rest name = .ok none) :
    name ∉ rest := by
  fun_induction textFlag rest name with
  | case1 => exact List.not_mem_nil
  | case2 v it => cases h
  | case3 => cases h
  | case4 a it hne ih =>
    intro hmem
    rcases List.mem_cons.mp hmem with heq | hmem
    · exact hne heq.symm
    · exact ih h hmem

section
variable {readToString : Text → Except Text Text}

theorem spendFile_eq_ok {after tail : List Text} {dsts : List SpendTo}
    (h : spendFile readToString after = .ok (dsts, tail)) :
    rejectUnknownFlags after [destinationsFlag, feeFlag, btlFlag] [] = .ok () := by
  unfold spendFile at h
  obtain ⟨_, hreject, h⟩ := bind_eq_ok.mp h
  obtain ⟨reference, href, h⟩ := bind_eq_ok.mp h
  rcases reference with _ | reference
  · have hnot := textFlag_eq_none href
    obtain ⟨names, hnames, hnodup⟩ := rejectUnknownFlags_eq_ok.mp hreject
    refine rejectUnknownFlags_eq_ok.mpr ⟨names, ?_, hnodup⟩
    rw [← hnames]
    refine flagNames_congr fun a ha => ?_
    have hne : a ≠ refFlag := fun heq => hnot (heq ▸ ha)
    simp [hne]
  · cases h

theorem spendPairs_eq_ok {after tail : List Text} {verb : Text} {dsts : List SpendTo}
    (h : spendPairs after verb = .ok (dsts, tail)) : ∃ pairs, after = pairs ++ tail ∧
      (∀ p ∈ pairs, p.startsWith dashes = false) ∧ pairs ≠ [] ∧ pairs.length % 2 = 0 ∧
      rejectUnknownFlags tail [feeFlag, btlFlag, refFlag] [] = .ok () := by
  unfold spendPairs at h
  dsimp only at h
  split_ifs at h with hnil hodd
  obtain ⟨_, hreject, h⟩ := bind_eq_ok.mp h
  obtain ⟨reference, -, h⟩ := bind_eq_ok.mp h
  split_ifs at h
  obtain ⟨dsts', -, h⟩ := bind_eq_ok.mp h
  cases h
  refine ⟨_, (List.takeWhile_append_dropWhile).symm, fun p hp => ?_, hnil, by omega, hreject⟩
  simpa using List.mem_takeWhile_imp hp

theorem spendArgs_accounts {v : Verb} (hv : v = .send ∨ v = .resign) {rest : List Text} {spend : Spend}
    (h : spendArgs readToString rest v.name = .ok spend) : v.Accounts rest := by
  have hforms : v.forms = Verb.send.forms := by rcases hv with rfl | rfl <;> rfl
  unfold Verb.Accounts
  rw [hforms]
  unfold spendArgs at h
  split at h
  · cases h
  · rename_i tagText after
    obtain ⟨tag, htag, h⟩ := bind_eq_ok.mp h
    have hplain := tagFromText_plain htag
    dsimp only at h
    split_ifs at h with hfile
    · obtain ⟨⟨dsts, tail⟩, hread, -⟩ := bind_eq_ok.mp h
      refine ⟨⟨(· = 1), [destinationsFlag, feeFlag, btlFlag], []⟩, by simp [Verb.forms], ?_⟩
      have hreject := spendFile_eq_ok hread
      exact Form.accounts_of_flags (f := ⟨_, _, _⟩) (p := [tagText]) (by simp) (by simpa using hplain) hreject
    · obtain ⟨⟨dsts, tail⟩, hread, -⟩ := bind_eq_ok.mp h
      refine ⟨⟨fun n => n % 2 = 1 && 3 ≤ n, [feeFlag, btlFlag, refFlag], []⟩, by simp [Verb.forms], ?_⟩
      obtain ⟨pairs, rfl, hpairs, hne, heven, hreject⟩ := spendPairs_eq_ok hread
      have hpos := List.length_pos_iff.mpr hne
      refine Form.accounts_of_flags (p := tagText :: pairs) ?_ ?_ hreject
      · simp only [List.length_cons, Bool.and_eq_true, decide_eq_true_eq]
        omega
      · intro p hp
        rcases List.mem_cons.mp hp with rfl | hp
        · exact hplain
        · exact hpairs p hp

/-! ## One verb -/

/-- The verb reads every token after it. -/
def Verb.ReadsAll (v : Verb) : Prop := v ≠ .transaction ∧ v ≠ .block

theorem Verb.accounts_of_flags {v : Verb} {valued bare rest : List Text}
    (hforms : ⟨(· = 0), valued, bare⟩ ∈ v.forms)
    (hreject : rejectUnknownFlags rest valued bare = .ok ()) : v.Accounts rest :=
  ⟨_, hforms, Form.accounts_of_flags (p := []) rfl (fun _ ha => by cases ha) hreject⟩

theorem Verb.accounts_of_leading {v : Verb} {valued rest : List Text} {verb : Text} {tag : Tag}
    (hforms : ⟨(· = 1), valued, []⟩ ∈ v.forms) (htag : leadingTag rest verb = .ok tag)
    (hreject : rejectUnknownFlags rest.tail valued [] = .ok ()) : v.Accounts rest := by
  obtain ⟨t, hrest, hplain⟩ := leadingTag_eq_ok htag
  refine ⟨_, hforms, ?_⟩
  rw [hrest]
  exact Form.accounts_of_flags (p := [t]) rfl (by simpa using hplain) hreject

theorem Verb.accounts_of_single {v : Verb} {t : Text} (hforms : ⟨(· = 1), [], []⟩ ∈ v.forms)
    (hplain : t.startsWith dashes = false) : v.Accounts [t] :=
  ⟨_, hforms, Form.accounts_of_plain rfl (by simpa using hplain)⟩

/-- What a verb that reads everything accepts, it accounts for. -/
theorem command_accounts {v : Verb} (hv : v.ReadsAll) {rest : List Text} {c : Command}
    (h : command readToString v rest = .ok c) : v.Accounts rest := by
  unfold command at h
  cases v with
  | balance =>
    obtain ⟨_, hreject, -⟩ := bind_eq_ok.mp h
    exact Verb.accounts_of_flags (by simp [Verb.forms]) hreject
  | create =>
    obtain ⟨_, hreject, -⟩ := bind_eq_ok.mp h
    exact Verb.accounts_of_flags (by simp [Verb.forms]) hreject
  | address =>
    dsimp only at h
    split_ifs at h
    · obtain ⟨_, hreject, -⟩ := bind_eq_ok.mp h
      exact Verb.accounts_of_flags (by simp [Verb.forms]) hreject
    · obtain ⟨tag, htag, -⟩ := bind_eq_ok.mp h
      refine ⟨⟨(· ≤ 1), [], []⟩, by simp [Verb.forms], ?_⟩
      rcases optionalTagArg_eq_ok htag with ⟨rfl, -⟩ | ⟨t, rfl, hplain, -⟩
      · exact Form.accounts_of_plain rfl (fun _ ha => by cases ha)
      · exact Form.accounts_of_plain rfl (by simpa using hplain)
  | status =>
    obtain ⟨tag, htag, h⟩ := bind_eq_ok.mp h
    obtain ⟨_, hreject, -⟩ := bind_eq_ok.mp h
    exact Verb.accounts_of_leading (by simp [Verb.forms]) htag hreject
  | settle =>
    obtain ⟨tag, htag, -⟩ := bind_eq_ok.mp h
    obtain ⟨t, rfl, hplain⟩ := tagArg_eq_ok htag
    exact Verb.accounts_of_single (by simp [Verb.forms]) hplain
  | send =>
    obtain ⟨spend, hspend, -⟩ := bind_eq_ok.mp h
    exact spendArgs_accounts (.inl rfl) hspend
  | resign =>
    obtain ⟨spend, hspend, -⟩ := bind_eq_ok.mp h
    exact spendArgs_accounts (.inr rfl) hspend
  | transaction => exact absurd rfl hv.1
  | recentTransactions =>
    obtain ⟨tag, htag, h⟩ := bind_eq_ok.mp h
    obtain ⟨_, hreject, -⟩ := bind_eq_ok.mp h
    exact Verb.accounts_of_leading (by simp [Verb.forms]) htag hreject
  | block => exact absurd rfl hv.2
  | blocks | mempool | discover =>
    obtain ⟨_, hread, -⟩ := bind_eq_ok.mp h
    obtain ⟨_, hreject, -⟩ := bind_eq_ok.mp hread
    exact Verb.accounts_of_flags (by simp [Verb.forms]) hreject
  | submit =>
    obtain ⟨artifact, hartifact, -⟩ := bind_eq_ok.mp h
    obtain ⟨rfl, hplain⟩ := artifactArg_eq_ok hartifact
    exact Verb.accounts_of_single (by simp [Verb.forms]) hplain
  | reconcile =>
    obtain ⟨tag, htag, h⟩ := bind_eq_ok.mp h
    obtain ⟨_, hreject, -⟩ := bind_eq_ok.mp h
    exact Verb.accounts_of_leading (by simp [Verb.forms]) htag hreject
  | restore =>
    obtain ⟨_, hreject, -⟩ := bind_eq_ok.mp h
    exact Verb.accounts_of_flags (by simp [Verb.forms]) hreject

/-- Whether a verb takes an odd number of tokens, where it does not depend. -/
def Verb.parity : Verb → ℕ
  | .balance | .blocks | .mempool | .discover | .restore => 0
  | _ => 1

theorem Verb.forms_parity {v : Verb} (hcreate : v ≠ .create) (haddress : v ≠ .address) :
    ∀ f ∈ v.forms, f.bare = [] ∧ ∀ n, f.takes n = true → n % 2 = v.parity := by
  cases v <;> simp_all [Verb.forms, Verb.parity]

theorem Verb.Accounts.parity {v : Verb} (hcreate : v ≠ .create) (haddress : v ≠ .address)
    {rest : List Text} (h : v.Accounts rest) : rest.length % 2 = v.parity := by
  obtain ⟨f, hf, positionals, flags, names, rfl, htakes, -, hnames, -⟩ := h
  obtain ⟨hbare, hparity⟩ := Verb.forms_parity hcreate haddress f hf
  rw [hbare] at hnames
  have hpos := hparity _ htakes
  have hflags := length_of_flagNames hnames
  rw [List.length_append, hflags]
  omega

/-! ### The two verbs that take nothing or something -/

theorem mem_of_flagNames {valued bare rest names : List Text}
    (h : flagNames valued bare rest = some names) : ∀ n ∈ names, n ∈ valued ∨ n ∈ bare := by
  fun_induction flagNames valued bare rest generalizing names with
  | case1 => cases h; simp
  | case2 a it hbare ih =>
    obtain ⟨more, hmore, rfl⟩ := Option.map_eq_some_iff.mp h
    exact List.forall_mem_cons.mpr ⟨.inr (List.contains_iff_mem.mp hbare), ih hmore⟩
  | case3 a hbare hvalued => cases h
  | case4 a hbare hvalued v it ih =>
    obtain ⟨more, hmore, rfl⟩ := Option.map_eq_some_iff.mp h
    exact List.forall_mem_cons.mpr ⟨.inl (List.contains_iff_mem.mp hvalued), ih hmore⟩
  | case5 a it hbare hvalued => cases h

theorem flagNames_of_bare {bare rest names : List Text} (h : flagNames [] bare rest = some names) :
    names = rest := by
  fun_induction flagNames [] bare rest generalizing names with
  | case1 => cases h; rfl
  | case2 a it hbare ih =>
    obtain ⟨more, hmore, rfl⟩ := Option.map_eq_some_iff.mp h
    rw [ih hmore]
  | case3 a hbare hvalued => cases h
  | case4 a hbare hvalued v it ih => cases hvalued
  | case5 a it hbare hvalued => cases h

theorem length_le_one_of_nodup {names : List Text} {name : Text} (hnodup : names.Nodup)
    (h : ∀ n ∈ names, n = name) : names.length ≤ 1 := by
  have hsub : names ⊆ [name] := fun n hn => List.mem_singleton.mpr (h n hn)
  exact (List.subperm_of_subset hnodup hsub).length_le

/-- `create` takes nothing, or the one flag. -/
theorem create_eq_ok {rest : List Text} {c : Command}
    (h : command readToString .create rest = .ok c) :
    (rest = [] ∧ c = .create false) ∨ (rest = [fromPhraseFlag] ∧ c = .create true) := by
  unfold command at h
  obtain ⟨_, hreject, h⟩ := bind_eq_ok.mp h
  cases h
  obtain ⟨names, hnames, hnodup⟩ := rejectUnknownFlags_eq_ok.mp hreject
  have hmem : ∀ n ∈ names, n = fromPhraseFlag := by simpa using mem_of_flagNames hnames
  have hlen := length_le_one_of_nodup hnodup hmem
  obtain rfl := flagNames_of_bare hnames
  rcases names with _ | ⟨a, _ | ⟨b, more⟩⟩
  · exact .inl ⟨rfl, rfl⟩
  · obtain rfl := hmem a (by simp)
    exact .inr ⟨rfl, by simp [bareFlag]⟩
  · simp at hlen

/-- `address` takes nothing, a tag, or `--account` and its value. -/
theorem address_eq_ok {rest : List Text} {c : Command}
    (h : command readToString .address rest = .ok c) :
    (rest = [] ∧ c = .address none none) ∨
      (∃ t tag, rest = [t] ∧ c = .address (some tag) none) ∨
      (rest.length = 2 ∧ accountFlag ∈ rest ∧ ∃ account, c = .address none (some account)) := by
  unfold command at h
  dsimp only at h
  split_ifs at h with hflag
  · obtain ⟨_, hreject, h⟩ := bind_eq_ok.mp h
    obtain ⟨account, -, h⟩ := bind_eq_ok.mp h
    cases h
    obtain ⟨names, hnames, hnodup⟩ := rejectUnknownFlags_eq_ok.mp hreject
    have hmem : accountFlag ∈ rest := by simpa [bareFlag] using hflag
    have hlen := length_le_one_of_nodup hnodup (by simpa using mem_of_flagNames hnames)
    have hpairs := length_of_flagNames hnames
    have hpos := List.length_pos_of_mem hmem
    exact .inr (.inr ⟨by omega, hmem, account, rfl⟩)
  · obtain ⟨tag, htag, h⟩ := bind_eq_ok.mp h
    cases h
    rcases optionalTagArg_eq_ok htag with ⟨rfl, rfl⟩ | ⟨t, rfl, -, hsome⟩
    · exact .inl ⟨rfl, rfl⟩
    · obtain ⟨tag, rfl⟩ := Option.ne_none_iff_exists'.mp hsome
      exact .inr (.inl ⟨t, tag, rfl, rfl⟩)

/-- A token more is refused, or makes another command. -/
theorem command_append {v : Verb} (hv : v.ReadsAll) {rest : List Text} {c c' : Command} {token : Text}
    (h : command readToString v rest = .ok c)
    (h' : command readToString v (rest ++ [token]) = .ok c') : c' ≠ c := by
  by_cases hcreate : v = .create
  · subst hcreate
    rcases create_eq_ok h with ⟨rfl, rfl⟩ | ⟨rfl, rfl⟩
    · rcases create_eq_ok h' with ⟨hnil, -⟩ | ⟨-, rfl⟩
      · cases hnil
      · simp
    · rcases create_eq_ok h' with ⟨hnil, -⟩ | ⟨hone, -⟩
      · cases hnil
      · cases hone
  by_cases haddress : v = .address
  · subst haddress
    rcases address_eq_ok h with ⟨rfl, rfl⟩ | ⟨t, tag, rfl, rfl⟩ | ⟨hlen, hmem, account, rfl⟩
    · rcases address_eq_ok h' with ⟨hnil, -⟩ | ⟨_, tag, -, rfl⟩ | ⟨hlen, -⟩
      · cases hnil
      · simp
      · cases hlen
    · rcases address_eq_ok h' with ⟨hnil, -⟩ | ⟨_, tag, hone, -⟩ | ⟨-, -, account, rfl⟩
      · cases hnil
      · cases hone
      · simp
    · rcases address_eq_ok h' with ⟨hnil, -⟩ | ⟨t, tag, hone, -⟩ | ⟨hlen', -⟩
      · simp at hnil
      · have hone := congrArg List.length hone
        simp [hlen] at hone
      · simp [hlen] at hlen'
  have hparity := (command_accounts hv h).parity hcreate haddress
  have hparity' := (command_accounts hv h').parity hcreate haddress
  rw [List.length_append, List.length_singleton] at hparity'
  omega

/-! ### The two verbs that read one token -/

theorem command_reads_one {v : Verb} (hv : ¬ v.ReadsAll) {rest : List Text} {c : Command}
    (h : command readToString v rest = .ok c) :
    (∃ t, rest.head? = some t ∧ t.startsWith dashes = false) ∧
      ∀ rest', rest'.head? = rest.head? → command readToString v rest' = .ok c := by
  have hone : v = .transaction ∨ v = .block := by
    by_contra hnot
    exact hv (not_or.mp hnot)
  unfold command at h
  rcases hone with rfl | rfl
  · obtain ⟨hash, hhash, -⟩ := bind_eq_ok.mp h
    refine ⟨hashArg_eq_ok hhash, fun rest' hhead => ?_⟩
    unfold command
    dsimp only at h ⊢
    rw [hhead, h]
  · obtain ⟨place, hplace, -⟩ := bind_eq_ok.mp h
    refine ⟨blockAt_eq_ok hplace, fun rest' hhead => ?_⟩
    unfold command
    dsimp only at h ⊢
    rw [hhead, h]

/-- The two account for one token, and there is no more to account for then. -/
theorem accounts_of_reads_one {v : Verb} (hv : ¬ v.ReadsAll) {rest : List Text} {t : Text}
    (hhead : rest.head? = some t) (hplain : t.startsWith dashes = false) :
    v.Accounts rest ↔ rest.length = 1 := by
  have hforms : v.forms = [⟨(· = 1), [], []⟩] := by
    by_contra hnot
    refine hv ⟨?_, ?_⟩ <;> rintro rfl <;> exact hnot rfl
  constructor
  · rintro ⟨f, hf, positionals, flags, names, rfl, htakes, -, hnames, -⟩
    rw [hforms, List.mem_singleton] at hf
    subst hf
    have hbare := flagNames_of_bare hnames
    have hnone := mem_of_flagNames hnames
    have hflags : flags = [] := by
      rcases names with _ | ⟨n, names⟩
      · exact hbare.symm
      · simpa using hnone n List.mem_cons_self
    simpa [hflags] using htakes
  · intro hlen
    obtain ⟨a, rfl⟩ := List.length_eq_one_iff.mp hlen
    cases hhead
    exact Verb.accounts_of_single (by rw [hforms]; exact List.mem_singleton_self _) hplain

/-! ## The whole line -/

/-- A flag of the whole program has been given. -/
def Globals.Gives (g : Globals) (name : Text) : Prop :=
  (name = dirFlag ∧ g.dir.isSome = true) ∨ (name = nodeFlag ∧ g.node.isSome = true) ∨
    (name = allowFlag ∧ g.allowPlaintext = true)

/-- What stands before the verb is flags, none given twice or given already. -/
def Globals.Fresh (g : Globals) (before : List Text) : Prop :=
  ∃ names, flagNames [dirFlag, nodeFlag] [allowFlag] before = some names ∧ names.Nodup ∧
    ∀ n ∈ names, ¬ g.Gives n

/-- One flag more before the others; `g'` has been given it and what `g` has. -/
theorem Globals.Fresh.cons {g g' : Globals} {before mark : List Text}
    (h : g'.Fresh before) (name : Text) (hnew : ¬ g.Gives name)
    (hmark : ∀ names, flagNames [dirFlag, nodeFlag] [allowFlag] before = some names →
      flagNames [dirFlag, nodeFlag] [allowFlag] (mark ++ before) = some (name :: names))
    (hgives : ∀ n, g'.Gives n ↔ n = name ∨ g.Gives n) : g.Fresh (mark ++ before) := by
  obtain ⟨names, hnames, hnodup, hout⟩ := h
  refine ⟨name :: names, hmark names hnames, List.nodup_cons.mpr ⟨fun hmem => ?_, hnodup⟩, ?_⟩
  · exact hout name hmem ((hgives name).mpr (.inl rfl))
  · intro n hn hgiven
    rcases List.mem_cons.mp hn with rfl | hn
    · exact hnew hgiven
    · exact hout n hn ((hgives n).mpr (.inr hgiven))

/-- The loop stops at a verb, and a line that is longer leaves more after it. -/
theorem readGlobals_eq_ok {g g' : Globals} {argv rest : List Text} {verb : Text}
    (h : readGlobals g argv = .ok (some (g', verb, rest))) :
    (∃ before, argv = before ++ verb :: rest ∧ g.Fresh before) ∧
      ∀ token, readGlobals g (argv ++ [token]) = .ok (some (g', verb, rest ++ [token])) := by
  fun_induction readGlobals g argv with
  | case1 | case2 | case3 | case5 | case6 | case8 | case9 | case11 => cases h
  | case4 g hnew v it hhelp ih =>
    obtain ⟨⟨before, rfl, hfresh⟩, happend⟩ := ih h
    refine ⟨⟨[dirFlag, v] ++ before, rfl, hfresh.cons dirFlag ?_ ?_ ?_⟩, fun token => ?_⟩
    · rintro (⟨-, hgiven⟩ | ⟨heq, -⟩ | ⟨heq, -⟩)
      · exact hnew hgiven
      · exact absurd heq (by decide)
      · exact absurd heq (by decide)
    · intro names hnames
      simp [flagNames_cons, hnames, show dirFlag ≠ allowFlag by decide]
    · intro n
      simp [Globals.Gives, hnew]
    · rw [← happend token, List.cons_append, List.cons_append, readGlobals.eq_def]
      simp [hnew, hhelp]
  | case7 g hnew v it hhelp hdir ih =>
    obtain ⟨⟨before, rfl, hfresh⟩, happend⟩ := ih h
    refine ⟨⟨[nodeFlag, v] ++ before, rfl, hfresh.cons nodeFlag ?_ ?_ ?_⟩, fun token => ?_⟩
    · rintro (⟨heq, -⟩ | ⟨-, hgiven⟩ | ⟨heq, -⟩)
      · exact absurd heq (by decide)
      · exact hnew hgiven
      · exact absurd heq (by decide)
    · intro names hnames
      simp [flagNames_cons, hnames, show nodeFlag ≠ allowFlag by decide]
    · intro n
      simp [Globals.Gives, hnew, or_left_comm]
    · rw [← happend token, List.cons_append, List.cons_append, readGlobals.eq_def]
      simp [hnew, hhelp, hdir]
  | case10 g it hnew hhelp hdir hnode ih =>
    obtain ⟨⟨before, rfl, hfresh⟩, happend⟩ := ih h
    refine ⟨⟨[allowFlag] ++ before, rfl, hfresh.cons allowFlag ?_ ?_ ?_⟩, fun token => ?_⟩
    · rintro (⟨heq, -⟩ | ⟨heq, -⟩ | ⟨-, hgiven⟩)
      · exact absurd heq (by decide)
      · exact absurd heq (by decide)
      · exact hnew hgiven
    · intro names hnames
      simp [flagNames_cons, hnames]
    · intro n
      simp [Globals.Gives, hnew, or_comm, or_left_comm]
    · rw [← happend token, List.cons_append, readGlobals.eq_def]
      simp [hnew, hhelp, hdir, hnode]
  | case12 g a it hhelp hdir hnode hallow hplain =>
    cases h
    refine ⟨⟨[], rfl, [], rfl, List.nodup_nil, fun _ hn => by cases hn⟩, fun token => ?_⟩
    rw [List.cons_append, readGlobals.eq_def]
    simp [hhelp, hdir, hnode, hallow, hplain]

theorem Verb.name_of_ofText {t : Text} {v : Verb} (h : Verb.ofText t = some v) : v.name = t := by
  simpa using List.find?_some h

theorem Verb.ofText_name (v : Verb) : Verb.ofText v.name = some v := by
  cases v <;> decide

theorem invocation_eq_ok {g : Globals} {verb : Text} {c : Command} {inv : Invocation}
    (h : invocation g verb c = .ok inv) : inv.command = c := by
  unfold invocation at h
  split at h
  · cases h
  · split at h
    · cases h
    · split_ifs at h
      cases h
      rfl

/-- A line that is read: flags, a verb, and a tail the verb's command is made of. -/
theorem parse_eq_run {argv : List Text} {inv : Invocation} :
    parse readToString argv = .ok (.run inv) ↔ ∃ g v rest,
      readGlobals ⟨none, none, false⟩ argv = .ok (some (g, Verb.name v, rest)) ∧
      rest.find? asksForHelp = none ∧ ∃ c, command readToString v rest = .ok c ∧
        invocation g v.name c = .ok inv := by
  unfold parse
  constructor
  · intro h
    obtain ⟨found, hglobals, h⟩ := bind_eq_ok.mp h
    rcases found with _ | ⟨g, verb, rest⟩
    · cases h
    dsimp only at h
    split at h
    · cases h
    · rename_i hhelp
      split at h
      · cases h
      · rename_i v hverb
        obtain ⟨c, hc, h⟩ := bind_eq_ok.mp h
        obtain ⟨run, hrun, h⟩ := bind_eq_ok.mp h
        cases h
        obtain rfl := Verb.name_of_ofText hverb
        exact ⟨g, v, rest, hglobals, hhelp, c, hc, hrun⟩
  · rintro ⟨g, v, rest, hglobals, hhelp, c, hc, hrun⟩
    rw [hglobals, ok_bind]
    dsimp only
    rw [hhelp]
    dsimp only
    rw [Verb.ofText_name]
    dsimp only
    rw [hc, ok_bind, hrun, ok_bind]
    rfl

theorem parse_ne_help {argv rest : List Text} {g : Globals} {verb : Text}
    (h : readGlobals ⟨none, none, false⟩ argv = .ok (some (g, verb, rest))) :
    parse readToString argv ≠ .ok .help := by
  intro hhelp
  unfold parse at hhelp
  rw [h, ok_bind] at hhelp
  dsimp only at hhelp
  split at hhelp
  · cases hhelp
  · split at hhelp
    · cases hhelp
    · obtain ⟨c, -, hhelp⟩ := bind_eq_ok.mp hhelp
      obtain ⟨run, -, hhelp⟩ := bind_eq_ok.mp hhelp
      cases hhelp

theorem Verb.name_inj {v v' : Verb} (h : v'.name = v.name) : v' = v := by
  have hname := Verb.ofText_name v
  rw [← h, Verb.ofText_name, Option.some.injEq] at hname
  exact hname

/-- What stands before the verb. -/
def globalForm : Form := ⟨(· = 0), [dirFlag, nodeFlag], [allowFlag]⟩

end

/-- A line with a token more is refused, or makes another command. -/
def Heeded (readToString : Text → Except Text Text) (argv : List Text) (inv : Invocation)
    (token : Text) : Prop :=
  (∃ usage, parse readToString (argv ++ [token]) = .error usage) ∨
    ∃ inv', parse readToString (argv ++ [token]) = .ok (.run inv') ∧ inv'.command ≠ inv.command

/-- Every token of a line that is read counts, and so does one more, but for a verb that reads only
the first: there the tokens are accounted for when there is one, and only a call for help counts. -/
theorem every_token_counts_iff (readToString : Text → Except Text Text) {argv : List Text}
    {inv : Invocation} (h : parse readToString argv = .ok (.run inv)) :
    ∃ before v rest, argv = before ++ Verb.name v :: rest ∧ globalForm.Accounts before ∧
      (v.Accounts rest ↔ v.ReadsAll ∨ rest.length = 1) ∧
      ∀ token, Heeded readToString argv inv token ↔ v.ReadsAll ∨ asksForHelp token = true := by
  obtain ⟨g, v, rest, hglobals, hhelp, c, hc, hinv⟩ := parse_eq_run.mp h
  obtain ⟨⟨before, hargv, names, hnames, hnodup, -⟩, happend⟩ := readGlobals_eq_ok hglobals
  have hbefore : globalForm.Accounts before := by
    refine ⟨[], before, names, rfl, rfl, ?_, hnames, hnodup⟩
    intro _ ha
    cases ha
  obtain rfl := invocation_eq_ok hinv
  refine ⟨before, v, rest, hargv, hbefore, ?_, fun token => ?_⟩
  · by_cases hv : v.ReadsAll
    · exact iff_of_true (command_accounts hv hc) (.inl hv)
    · obtain ⟨⟨t, hhead, hplain⟩, -⟩ := command_reads_one hv hc
      rw [accounts_of_reads_one hv hhead hplain, or_iff_right hv]
  · constructor
    · intro hheeded
      by_contra hnot
      obtain ⟨hv, hquiet⟩ := not_or.mp hnot
      -- the longer line is read as the shorter was
      obtain ⟨⟨t, hhead, -⟩, hagain⟩ := command_reads_one hv hc
      have hsame : parse readToString (argv ++ [token]) = .ok (.run inv) := by
        refine parse_eq_run.mpr ⟨g, v, rest ++ [token], happend token, ?_, _, hagain _ ?_, hinv⟩
        · rw [List.find?_append, hhelp, Option.none_or]
          simpa using hquiet
        · rw [List.head?_append, hhead]
          rfl
      rcases hheeded with ⟨usage, herror⟩ | ⟨inv', hrun, hne⟩
      · rw [hsame] at herror
        cases herror
      · rw [hsame] at hrun
        cases hrun
        exact hne rfl
    · intro hreads
      cases hlonger : parse readToString (argv ++ [token]) with
      | error usage => exact .inl ⟨usage, hlonger⟩
      | ok out =>
        cases out with
        | help => exact absurd hlonger (parse_ne_help (happend token))
        | run inv' =>
          obtain ⟨g', v', rest', hglobals', hhelp', c', hc', hinv'⟩ := parse_eq_run.mp hlonger
          rw [happend token] at hglobals'
          simp only [Except.ok.injEq, Option.some.injEq, Prod.mk.injEq] at hglobals'
          obtain ⟨rfl, hname, rfl⟩ := hglobals'
          obtain rfl := Verb.name_inj hname
          obtain rfl := invocation_eq_ok hinv'
          rcases hreads with hv | hasks
          · exact .inr ⟨inv', hlonger, command_append hv hc hc'⟩
          · have hquiet := List.find?_eq_none.mp hhelp' token (by simp)
            exact absurd hasks hquiet

/-- No file is there to read. -/
def noFiles (_ : Text) : Except Text Text := .error "not found".toList

def blockLine : List Text :=
  ["--dir".toList, "d".toList, "--node".toList, "https://n".toList, "block".toList, "7".toList]

def blockRead : Invocation := ⟨"d".toList, some "https://n".toList, .block (.index 7)⟩

theorem blockLine_read : parse noFiles blockLine = .ok (.run blockRead) := by decide

theorem every_token_counts_block : ∃ before v rest, blockLine = before ++ Verb.name v :: rest ∧
    globalForm.Accounts before ∧ (v.Accounts rest ↔ v.ReadsAll ∨ rest.length = 1) ∧
    ∀ token, Heeded noFiles blockLine blockRead token ↔ v.ReadsAll ∨ asksForHelp token = true :=
  every_token_counts_iff noFiles blockLine_read

/-- A second block after the one asked for goes unread. -/
theorem second_block_unread : ¬ ∀ (argv : List Text) (inv : Invocation),
    parse noFiles argv = .ok (.run inv) → ∀ token, Heeded noFiles argv inv token := by
  intro h
  have hagain : parse noFiles (blockLine ++ ["8".toList]) = .ok (.run blockRead) := by decide
  rcases h _ _ blockLine_read "8".toList with ⟨usage, herror⟩ | ⟨inv', hrun, hne⟩
  · rw [hagain] at herror
    cases herror
  · rw [hagain] at hrun
    cases hrun
    exact hne rfl

end MochimoWallet.Cli
