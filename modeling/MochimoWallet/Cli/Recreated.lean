import MochimoWallet.Cli.CreateRefused

/-!
# The phrase is the way back

What `create` shows before it writes anything is all that the store depends on but the password and
what the host draws: from those words `create --from-phrase` makes the same store in another
directory, under another password, and names the same destination (`phrase_recreates`).
-/

namespace MochimoWallet.Cli

open Codec Keystore

section
variable [Crypto] [Bip39] {host : Host} {fromPhrase : Bool} {entropy : Except Text CreateEntropy}
  {acquire : Except Text Terminal} {term : Terminal} {words password : Text} {e : CreateEntropy}
  {said : List Said} {master : Secret} {m m' : UnixMedium}

omit [Bip39] in
/-- The tag the two commits return is the first account's. -/
theorem fill_tag {s t : Opened UnixMedium} {tag : Tag} (h : fill master s = (.ok tag, t)) :
    tag = (Account.derive master 0).tag := by
  rw [fill] at h
  rcases Call.bind_cases h with ⟨_, u, -, h⟩ | ⟨_, -, hr⟩ | ⟨-, hr⟩
  · dsimp only at h
    rcases Call.bind_cases h with ⟨_, v, -, h⟩ | ⟨_, -, hr⟩ | ⟨-, hr⟩
    · exact Reply.ok.inj (Prod.mk.inj h).1.symm
    · cases hr
    · cases hr
  · cases hr
  · cases hr

theorem create_tag {answers : Answers} {tag : Tag} (hlong : minPasswordLen ≤ password.length)
    (hseed : Mnemonic.masterSeedFromPhrase words [] = .ok master)
    (h : create answers words password e.salt e.nonceSeed m = (.ok tag, m')) :
    tag = (Account.derive master 0).tag := by
  simp only [create, shortPasswordChars_eq_none hlong, hseed, Except.mapError, Call.check_ok,
    Call.pure_bind] at h
  rcases Call.bind_cases h with ⟨ks, u, -, h⟩ | ⟨_, -, hr⟩ | ⟨-, hr⟩
  · obtain ⟨r, hhandle, hr⟩ := Call.mapErr_cases h
    obtain ⟨t, hfill, -⟩ := withHandle_cases hhandle
    rcases r with tag' | cause | _ <;> cases hr
    exact fill_tag hfill
  · cases hr
  · cases hr

/-- What a run that reports success was told, and the store it made of that. -/
theorem created_of_ok (hl : Crypto.Lawful) (hshort : Crypto.TakesShort) {report : Report}
    {s' : Scene UnixMedium} (h : orchestrate host fromPhrase entropy acquire ⟨m, []⟩ = (.ok report, s'))
    (hcode : report.code = .ok) :
    ∃ term words password e master, Agreed term entropy fromPhrase words password e s'.said ∧
      Mnemonic.masterSeedFromPhrase words [] = .ok master ∧
      Reopens password.utf8 s'.medium (firstStore master) ∧
      report = reportOf host fromPhrase (.ok (Account.derive master 0).tag) := by
  rw [orchestrate] at h
  rcases hrun : orchestrating host fromPhrase entropy acquire (⟨m, []⟩ : Scene UnixMedium) with
    ⟨reply, t⟩
  rw [hrun] at h
  rcases orchestrating_cases hrun with
    ⟨text, rfl, -, -⟩ | ⟨term, words, password, e, said, -, -, hagreed, hwrite⟩
  · cases h
    cases hcode
  obtain ⟨r', hcreate, rfl, rfl⟩ := making_cases hwrite
  rcases r' with tag | cause | _
  · cases h
    have hnot : ¬ ∃ cause, (Reply.ok tag : Reply CreateError Tag) = .err cause ∧ s'.medium = m := by
      rintro ⟨cause, hr, -⟩
      cases hr
    have hreaches := (create_reaches hcreate).resolve_left hnot
    obtain ⟨master, hseed⟩ := hreaches.seed
    have hend := create_end hl hshort hreaches hseed hcreate
    rw [create_tag hreaches.long hseed hcreate]
    exact ⟨term, words, password, e, master, hagreed, hseed, hend.done tag rfl, rfl⟩
  · cases h
    cases hcode
  · cases h

theorem Agreed.long (h : Agreed term entropy fromPhrase words password e said) :
    minPasswordLen ≤ password.length := by
  cases h with
  | supplied _ hchosen => exact hchosen.long
  | shown hchosen => exact hchosen.long

theorem Agreed.chose (h : Agreed term entropy fromPhrase words password e said) :
    .asked choosePrompt (.ok password) ∈ said := by
  cases h with
  | supplied => simp [typed]
  | shown => simp [typed]

/-- Once all is agreed and no step of the write fails, the store is made and reported. -/
theorem orchestrate_makes (hl : Crypto.Lawful) (hshort : Crypto.TakesShort)
    (hacquire : acquire = .ok term) (hagreed : Agreed term entropy fromPhrase words password e said)
    (hseed : Mnemonic.masterSeedFromPhrase words [] = .ok master)
    (hfounds : Founds host.answers ⟨password.utf8, e.salt, e.nonceSeed, .recommended⟩ m)
    (hclean : Fate.clean 13 m.fates) :
    ∃ s', orchestrate host fromPhrase entropy acquire ⟨m, []⟩ =
        (.ok (reportOf host fromPhrase (.ok (Account.derive master 0).tag)), s') ∧
      Reopens password.utf8 s'.medium (firstStore master) := by
  have hfree : host.occupied m = none := by
    simp [Host.occupied, HasSnapshots.snapshots, hfounds.free]
  rcases hwrite : making host fromPhrase words password e ⟨m, said⟩ with ⟨reply, s'⟩
  obtain ⟨r', hcreate, -, rfl⟩ := making_cases hwrite
  have hend := create_end hl hshort ⟨hagreed.long, ⟨master, hseed⟩, hfounds⟩ hseed hcreate
  obtain ⟨tag, rfl⟩ := hend.spans.ok.mpr hclean
  refine ⟨s', ?_, hend.done tag rfl⟩
  rw [orchestrate, orchestrating_agreed hacquire hfree hagreed, hwrite,
    create_tag hagreed.long hseed hcreate]

/-- A phrase gives back the store of a master: `create --from-phrase` over these words can only make
that store, under the password it asks for, and makes it wherever nothing stands in its way. -/
structure Recreates (phrase dest : Text) (master : Secret) : Prop where
  same : ∀ (host : Host) (entropy : Except Text CreateEntropy) (acquire : Except Text Terminal)
    (m : UnixMedium) (report : Report) (s' : Scene UnixMedium),
    orchestrate host true entropy acquire ⟨m, []⟩ = (.ok report, s') → report.code = .ok →
      .asked wordsPrompt (.ok phrase) ∈ s'.said →
        report.text = createdText host.dir dest none ∧
          ∃ password, .asked choosePrompt (.ok password) ∈ s'.said ∧
            Reopens password.utf8 s'.medium (firstStore master)
  makes : ∀ (host : Host) (e : CreateEntropy) (term : Terminal) (m : UnixMedium) (password : Text)
    (said : List Said), Agreed term (.ok e) true phrase password e said →
      Founds host.answers ⟨password.utf8, e.salt, e.nonceSeed, .recommended⟩ m →
      Fate.clean 13 m.fates →
        ∃ s', orchestrate host true (.ok e) (.ok term) ⟨m, []⟩ =
            (.ok ⟨createdText host.dir dest none, .ok⟩, s') ∧
          Reopens password.utf8 s'.medium (firstStore master)

omit [Crypto] [Bip39] in
theorem suppliedReport_ok {tag : Tag} {dest : Text} (h : tagToBase58 tag = .ok dest) :
    reportOf host true (.ok tag) = ⟨createdText host.dir dest none, .ok⟩ := by
  simp only [reportOf, if_true, suppliedReport, h]

/-- The words typed at the prompt are the only ones it was answered with. -/
theorem Agreed.words_eq {typedWords : Text}
    (h : Agreed term entropy true words password e said)
    (htyped : .asked wordsPrompt (.ok typedWords) ∈ said) : typedWords = words := by
  have hchoose : wordsPrompt ≠ choosePrompt := by decide +kernel
  have hagain : wordsPrompt ≠ againPrompt := by decide +kernel
  cases h with
  | supplied =>
    simp only [typed, List.mem_cons, Said.asked.injEq, hchoose, hagain, false_and,
      List.not_mem_nil, or_false, reduceCtorEq, true_and, Except.ok.injEq] at htyped
    exact htyped

theorem recreates (hl : Crypto.Lawful) (hshort : Crypto.TakesShort) {dest : Text}
    (hseed : Mnemonic.masterSeedFromPhrase words [] = .ok master)
    (hdest : tagToBase58 (Account.derive master 0).tag = .ok dest) : Recreates words dest master := by
  refine ⟨fun host entropy acquire m report s' h hcode htyped => ?_,
    fun host e term m password said hagreed hfounds hclean => ?_⟩
  · obtain ⟨term, words', password, e, master', hagreed, hseed', hstore, rfl⟩ :=
      created_of_ok hl hshort h hcode
    obtain rfl := hagreed.words_eq htyped
    obtain rfl : master = master' := Except.ok.inj (hseed.symm.trans hseed')
    exact ⟨congrArg Report.text (suppliedReport_ok hdest), password, hagreed.chose, hstore⟩
  · rw [← suppliedReport_ok hdest]
    exact orchestrate_makes hl hshort rfl hagreed hseed hfounds hclean

/-- The phrase that a created store's operator was shown gives that store back. -/
theorem phrase_recreates (hl : Crypto.Lawful) (hshort : Crypto.TakesShort) {report : Report}
    {s' : Scene UnixMedium} (h : orchestrate host false entropy acquire ⟨m, []⟩ = (.ok report, s'))
    (hcode : report.code = .ok) :
    ∃ phrase dest password master, .shown (phraseText phrase) (.ok ()) ∈ s'.said ∧
      .asked choosePrompt (.ok password) ∈ s'.said ∧
      report.text = createdText host.dir dest (some confirmPositions.length) ∧
      Reopens password.utf8 s'.medium (firstStore master) ∧ Recreates phrase dest master := by
  obtain ⟨term, words, password, e, master, hagreed, hseed, hstore, rfl⟩ :=
    created_of_ok hl hshort h hcode
  obtain ⟨dest, hdest⟩ := tagToBase58_ok (Account.derive master 0).tag
  refine ⟨words, dest, password, master, ?_, hagreed.chose, ?_, hstore,
    recreates hl hshort hseed hdest⟩
  · generalize s'.said = said at hagreed
    cases hagreed with
    | shown => simp
  · simp only [reportOf, Bool.false_eq_true, if_false, shownReport, hdest]

end

section
attribute [local instance] Crypto.copying numbered

/-- An empty directory on a disk that takes every write. -/
def emptyDisk : UnixMedium := ⟨⟨none, none, none⟩, [], []⟩

/-- The command and what it leaves, run over an empty directory. -/
def founding : Reply Empty Report × Scene UnixMedium :=
  orchestrate home false (.ok zeros) (.ok operator) ⟨emptyDisk, []⟩

/-- What it reports. -/
def founded : Report :=
  match founding.1 with
  | .ok report => report
  | _ => .refused []

theorem phrase_recreates_founding :
    ∃ phrase dest password master, .shown (phraseText phrase) (.ok ()) ∈ founding.2.said ∧
      .asked choosePrompt (.ok password) ∈ founding.2.said ∧
      founded.text = createdText home.dir dest (some confirmPositions.length) ∧
      Reopens password.utf8 founding.2.medium (firstStore master) ∧
      Recreates phrase dest master := by
  have hrun : founding.1 = .ok founded ∧ founded.code = .ok := by decide +kernel
  have hfounding : founding = (.ok founded, founding.2) := by rw [← hrun.1]
  exact phrase_recreates Crypto.copying_lawful (fun _ _ _ _ _ => rfl) hfounding hrun.2

end

end MochimoWallet.Cli
