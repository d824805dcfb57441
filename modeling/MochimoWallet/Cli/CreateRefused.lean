import MochimoWallet.Cli.Create
import MochimoWallet.Keystore.Atomic
import MochimoWallet.Keystore.Canonical
import MochimoWallet.Keystore.Fates

/-!
# What a refused create leaves

Every refusal that comes before the write says that nothing was created, and it is so
(`orchestrating_cases`). The write is three commits, and its failures are reported with the same
sentence. That is so while the first one fails before its rename takes effect. From there on a
snapshot is in the directory, and the sentence is still what the operator is given
(`create_keeps_promise`).
-/

namespace MochimoWallet.Cli

open Codec Keystore

/-! ## The promise -/

theorem promise_suffix {a : Text} : promise <:+: a ++ promise := (List.suffix_append a promise).isInfix

theorem promise_nothingWasCreated (text : Text) : promise <:+: nothingWasCreated text := by
  unfold nothingWasCreated
  dsimp only
  split
  · exact ⟨text.trimEnd ++ [' '], [], by simp⟩
  · exact ⟨text.trimEnd ++ ['.', ' '], [], by simp⟩

theorem promise_unmade (text : Text) : promise <:+: (Report.unmade text).text :=
  promise_nothingWasCreated text

theorem promise_passwordRefusal {password why : Text} (h : passwordRefusal password = some why) :
    promise <:+: why := by
  obtain ⟨chars, -, rfl⟩ := Option.map_eq_some_iff.mp h
  exact promise_suffix

/-! ## The operator's side -/

section
variable {D : Type} {term : Terminal}

theorem tell_bind {δ α : Type} (f : Text → δ) (text : Text) (g : Unit → Call (Scene D) δ α)
    (s : Scene D) :
    ((term.tell text).mapErr f >>= g) s = match term.shows s.said text with
      | .ok () => g () ⟨s.medium, .shown text (.ok ()) :: s.said⟩
      | .error e => (.err (f e), ⟨s.medium, .shown text (.error e) :: s.said⟩) := by
  rw [Call.bind_apply, Call.mapErr, Terminal.tell]
  simp only [Call.get_bind, Call.modify_bind]
  rcases term.shows s.said text with e | ⟨⟩ <;> rfl

theorem readSecretLine_bind {δ α : Type} (f : Text → δ) (prompt : Text)
    (g : Text → Call (Scene D) δ α) (s : Scene D) :
    ((term.readSecretLine prompt).mapErr f >>= g) s = match term.secretLine s.said prompt with
      | .ok line => g line ⟨s.medium, .asked prompt (.ok line) :: s.said⟩
      | .error e => (.err (f e), ⟨s.medium, .asked prompt (.error e) :: s.said⟩) := by
  rw [Call.bind_apply, Call.mapErr, Terminal.readSecretLine]
  simp only [Call.get_bind, Call.modify_bind]
  rcases term.secretLine s.said prompt with e | line <;> rfl

theorem readVisibleLine_bind {δ α : Type} (f : Text → δ) (prompt : Text)
    (g : Text → Call (Scene D) δ α) (s : Scene D) :
    ((term.readVisibleLine prompt).mapErr f >>= g) s = match term.visibleLine s.said prompt with
      | .ok line => g line ⟨s.medium, .asked prompt (.ok line) :: s.said⟩
      | .error e => (.err (f e), ⟨s.medium, .asked prompt (.error e) :: s.said⟩) := by
  rw [Call.bind_apply, Call.mapErr, Terminal.readVisibleLine]
  simp only [Call.get_bind, Call.modify_bind]
  rcases term.visibleLine s.said prompt with e | line <;> rfl

/-- The transcript of a password typed twice. -/
def typed (said : List Said) (password again : Text) : List Said :=
  .asked againPrompt (.ok again) :: .asked choosePrompt (.ok password) :: said

/-- The operator types a password that is long enough, and the same again. -/
structure Chosen (term : Terminal) (said : List Said) (password again : Text) : Prop where
  first : term.secretLine said choosePrompt = .ok password
  long : minPasswordLen ≤ password.length
  second : term.secretLine (.asked choosePrompt (.ok password) :: said) againPrompt = .ok again
  same : password.utf8 = again.utf8

theorem passwordRefusal_eq_none {password : Text} :
    passwordRefusal password = none ↔ minPasswordLen ≤ password.length := by
  rw [passwordRefusal, Option.map_eq_none_iff, shortPasswordChars]
  split <;> simp <;> omega

theorem readNewPassword_chosen {s : Scene D} {password again : Text}
    (h : Chosen term s.said password again) :
    readNewPassword term s = (.ok password, ⟨s.medium, typed s.said password again⟩) := by
  rw [readNewPassword, readSecretLine_bind, h.first]
  simp only [passwordRefusal_eq_none.mpr h.long, readSecretLine_bind, h.second, h.same, ne_eq,
    not_true_eq_false, if_false]
  rfl

/-- A password is chosen, or refused with the promise. -/
theorem readNewPassword_cases {s t : Scene D} {r : Reply Text Text}
    (h : readNewPassword term s = (r, t)) :
    (∃ why, r = .err why ∧ promise <:+: why ∧ t.medium = s.medium) ∨
      ∃ password again, Chosen term s.said password again ∧ r = .ok password ∧
        t = ⟨s.medium, typed s.said password again⟩ := by
  rw [readNewPassword, readSecretLine_bind] at h
  rcases hfirst : term.secretLine s.said choosePrompt with e | password <;> rw [hfirst] at h
  · cases h
    exact .inl ⟨_, rfl, promise_nothingWasCreated e, rfl⟩
  dsimp only at h
  rcases hlong : passwordRefusal password with _ | why <;> rw [hlong] at h
  swap
  · cases h
    exact .inl ⟨why, rfl, promise_passwordRefusal hlong, rfl⟩
  dsimp only at h
  rw [readSecretLine_bind] at h
  rcases hsecond : term.secretLine (.asked choosePrompt (.ok password) :: s.said) againPrompt with
    e | again <;> rw [hsecond] at h
  · cases h
    exact .inl ⟨_, rfl, promise_nothingWasCreated e, rfl⟩
  dsimp only at h
  split at h
  · cases h
    exact .inl ⟨_, rfl, promise_suffix, rfl⟩
  · next hsame =>
    cases h
    exact .inr ⟨password, again, ⟨hfirst, passwordRefusal_eq_none.mp hlong, hsecond,
      not_not.mp hsame⟩, rfl, rfl⟩

end

section
variable [Crypto] [Bip39]

/-- Everything the command asks has been answered: the phrase and the password it goes on with, what
it drew, and the transcript. -/
inductive Agreed (term : Terminal) (entropy : Except Text CreateEntropy) :
    Bool → Text → Text → CreateEntropy → List Said → Prop where
  | supplied {password again words : Text} {e : CreateEntropy}
      (hwarned : term.shows [] schemeWarning = .ok ())
      (hchosen : Chosen term [.shown schemeWarning (.ok ())] password again)
      (hwords : term.secretLine (typed [.shown schemeWarning (.ok ())] password again) wordsPrompt =
        .ok words)
      (he : entropy = .ok e) :
      Agreed term entropy true words password e
        (.asked wordsPrompt (.ok words) :: typed [.shown schemeWarning (.ok ())] password again)
  | shown {password again words answer : Text} {e : CreateEntropy}
      (hchosen : Chosen term [] password again) (he : entropy = .ok e)
      (hwords : Mnemonic.phraseFromEntropy e.phrase.1 = .ok words)
      (hshown : term.shows (typed [] password again) (phraseText words) = .ok ())
      (hanswer : term.visibleLine (.shown (phraseText words) (.ok ()) :: typed [] password again)
        confirmPrompt = .ok answer)
      (hmatch : confirmationMatches words answer) :
      Agreed term entropy false words password e
        (.asked confirmPrompt (.ok answer) :: .shown (phraseText words) (.ok ()) ::
          typed [] password again)

variable {D : Type} [Storage D]

/-- The report of a write, by the way its phrase came. -/
def reportOf (host : Host) (fromPhrase : Bool) : Except CreateError Tag → Report :=
  if fromPhrase then suppliedReport host else shownReport host

/-- The write of an agreed phrase, and its report. -/
def making (host : Host) (fromPhrase : Bool) (words password : Text) (e : CreateEntropy) :
    Call (Scene D) Report Report := do
  let created ← (onMedium (create host.answers words password e.salt e.nonceSeed)).attempt
  pure (reportOf host fromPhrase created)

variable {host : Host} {fromPhrase : Bool} {entropy : Except Text CreateEntropy}
  {acquire : Except Text Terminal} {term : Terminal} {words password : Text} {e : CreateEntropy}
  {said : List Said} {m : D}

/-- Once all is agreed, the command is its write. -/
theorem orchestrating_agreed (hacquire : acquire = .ok term) (hfree : host.occupied m = none)
    (h : Agreed term entropy fromPhrase words password e said) :
    orchestrating host fromPhrase entropy acquire ⟨m, []⟩ =
      making host fromPhrase words password e ⟨m, said⟩ := by
  have hheld : refuseHeld host m = .ok () := by simp only [refuseHeld, hfree]
  have hpassword {s : Scene D} {again : Text} (hchosen : Chosen term s.said password again)
      (g : Text → Call (Scene D) Report Report) :
      ((readNewPassword term).mapErr Report.refused >>= g) s =
        g password ⟨s.medium, typed s.said password again⟩ := by
    rw [Call.bind_apply, Call.mapErr, readNewPassword_chosen hchosen]
  subst hacquire
  rw [orchestrating]
  simp only [Except.mapError, Call.check_ok, Call.pure_bind, Call.get_bind, hheld]
  cases h with
  | @supplied _ again _ _ hwarned hchosen hwords he =>
    simp only [if_true, tell_bind, hwarned]
    rw [hpassword hchosen]
    simp only [readSecretLine_bind, hwords, he, Call.check_ok, Call.pure_bind]
    rfl
  | @shown _ again _ answer _ hchosen he hwords hshown hanswer hmatch =>
    simp only [Bool.false_eq_true, if_false]
    rw [hpassword hchosen]
    simp only [he, hwords, Call.check_ok, Call.pure_bind, tell_bind, hshown, readVisibleLine_bind,
      hanswer, hmatch, if_true]
    rfl

/-- The command refuses with the promise and nothing written, or all is agreed and it goes on to its
write. -/
theorem orchestrating_cases {r : Reply Report Report} {s' : Scene D}
    (h : orchestrating host fromPhrase entropy acquire ⟨m, []⟩ = (r, s')) :
    (∃ text, r = .err (.refused text) ∧ promise <:+: text ∧ s'.medium = m) ∨
      ∃ term words password e said, acquire = .ok term ∧ host.occupied m = none ∧
        Agreed term entropy fromPhrase words password e said ∧
        making host fromPhrase words password e ⟨m, said⟩ = (r, s') := by
  have hunmade {s : Scene D} (hs : s.medium = m) (text : Text)
      (h : ((.err (.unmade text), s) : Reply Report Report × Scene D) = (r, s')) :
      ∃ text, r = .err (.refused text) ∧ promise <:+: text ∧ s'.medium = m := by
    cases h
    exact ⟨_, rfl, promise_nothingWasCreated text, hs⟩
  have hpassword {s : Scene D} {term : Terminal} (hs : s.medium = m)
      {g : Text → Call (Scene D) Report Report}
      (hread : ((readNewPassword term).mapErr Report.refused >>= g) s = (r, s')) :
      (∃ text, r = .err (.refused text) ∧ promise <:+: text ∧ s'.medium = m) ∨
        ∃ password again, Chosen term s.said password again ∧
          g password ⟨m, typed s.said password again⟩ = (r, s') := by
    rw [Call.bind_apply, Call.mapErr] at hread
    rcases hreply : readNewPassword term s with ⟨reply, t⟩
    rcases readNewPassword_cases hreply with
      ⟨why, rfl, hwhy, ht⟩ | ⟨password, again, hchosen, rfl, rfl⟩ <;> rw [hreply] at hread
    · cases hread
      exact .inl ⟨why, rfl, hwhy, ht.trans hs⟩
    · exact .inr ⟨password, again, hchosen, hs ▸ hread⟩
  rw [orchestrating] at h
  rcases acquire with text | term
  · exact .inl (hunmade rfl text h)
  simp only [Except.mapError, Call.check_ok, Call.pure_bind, Call.get_bind] at h
  rcases hfree : host.occupied m with _ | what <;> simp only [refuseHeld, hfree] at h
  swap
  · exact .inl (hunmade rfl _ h)
  rw [Call.check_ok, Call.pure_bind] at h
  cases fromPhrase with
  | true =>
    simp only [if_true, tell_bind] at h
    rcases hwarned : term.shows [] schemeWarning with text | ⟨⟩ <;> rw [hwarned] at h
    · exact .inl (hunmade rfl text h)
    rcases hpassword rfl h with hrefused | ⟨password, again, hchosen, h⟩
    · exact .inl hrefused
    rw [readSecretLine_bind] at h
    rcases hwords : term.secretLine (typed [.shown schemeWarning (.ok ())] password again)
      wordsPrompt with text | words <;> rw [hwords] at h
    · exact .inl (hunmade rfl text h)
    rcases he : entropy with text | e <;> rw [he] at h
    · exact .inl (hunmade rfl text h)
    exact .inr ⟨term, words, password, e, _, rfl, rfl, .supplied hwarned hchosen hwords rfl, h⟩
  | false =>
    simp only [Bool.false_eq_true, if_false] at h
    rcases hpassword rfl h with hrefused | ⟨password, again, hchosen, h⟩
    · exact .inl hrefused
    rcases he : entropy with text | e <;> rw [he] at h
    · exact .inl (hunmade rfl text h)
    rw [Call.check_ok, Call.pure_bind] at h
    obtain ⟨words, hwords⟩ := Mnemonic.phraseFromEntropy_ok e.phrase
    rw [hwords] at h
    simp only [Call.check_ok, Call.pure_bind, tell_bind] at h
    rcases hshown : term.shows (typed [] password again) (phraseText words) with text | ⟨⟩ <;>
      rw [hshown] at h
    · exact .inl (hunmade rfl text h)
    dsimp only at h
    rw [readVisibleLine_bind] at h
    rcases hanswer : term.visibleLine (.shown (phraseText words) (.ok ()) :: typed [] password again)
      confirmPrompt with text | answer <;> rw [hanswer] at h
    · exact .inl (hunmade rfl text h)
    dsimp only at h
    rw [Call.ite_apply] at h
    split at h
    · next hmatch =>
      exact .inr ⟨term, words, password, e, _, rfl, rfl, .shown hchosen rfl hwords hshown hanswer
        hmatch, h⟩
    · cases h
      exact .inl ⟨_, rfl, ⟨_, _, rfl⟩, rfl⟩

omit [Crypto] [Bip39] in
theorem reportOf_ok (tag : Tag) : (reportOf host fromPhrase (.ok tag)).code = .ok := by
  obtain ⟨dest, hdest⟩ := tagToBase58_ok tag
  unfold reportOf
  split
  · rw [suppliedReport, hdest]
  · rw [shownReport, hdest]

omit [Crypto] [Bip39] in
theorem reportOf_error (cause : CreateError) :
    reportOf host fromPhrase (.error cause) = .unmade (host.display cause) := by
  unfold reportOf
  split <;> rfl

/-- How a write ends: the way of its calls, with their report. -/
theorem making_cases {r : Reply Report Report} {s' : Scene D}
    (h : making host fromPhrase words password e ⟨m, said⟩ = (r, s')) :
    ∃ r', create host.answers words password e.salt e.nonceSeed m = (r', s'.medium) ∧
      s'.said = said ∧ r = match r' with
        | .ok tag => .ok (reportOf host fromPhrase (.ok tag))
        | .err cause => .ok (.unmade (host.display cause))
        | .killed => .killed := by
  rcases hcreate : create host.answers words password e.salt e.nonceSeed m with ⟨r', m'⟩
  rw [making, Call.bind_apply, Call.attempt, onMedium, Call.zoom] at h
  simp only [hcreate] at h
  rcases r' with tag | cause | _ <;> cases h
  · exact ⟨_, rfl, rfl, rfl⟩
  · exact ⟨_, rfl, rfl, congrArg _ (reportOf_error cause)⟩
  · exact ⟨_, rfl, rfl, rfl⟩

end

/-! ## The write -/

section
variable [Crypto]

/-- Nothing but the medium stands between `create` and its first commit. -/
structure Founds (answers : Answers) (init : Init) (m : UnixMedium) : Prop where
  directory : answers.directory = .ok ()
  stat : answers.stat = .ok ()
  lock : answers.lock = .ok ()
  free : m.disk.snapshot = none
  key : ∃ key, deriveKey init.password init.salt init.kdf = .ok key

theorem createWith_founds {answers : Answers} {init : Init} {m m' : UnixMedium}
    {r : Reply Error Keystore} (h : createWith answers init m = (r, m')) :
    (∃ e, r = .err e ∧ m' = m) ∨ Founds answers init m := by
  unfold createWith at h
  rcases Call.check_bind_cases h with ⟨e, -, rfl, rfl⟩ | ⟨⟨⟩, hdirectory, h⟩
  · exact .inl ⟨e, rfl, rfl⟩
  rw [Call.get_bind] at h
  rcases Call.check_bind_cases h with ⟨e, -, rfl, rfl⟩ | ⟨_, hfree, h⟩
  · exact .inl ⟨e, rfl, rfl⟩
  obtain ⟨⟨⟩, hstat, hfree⟩ := bind_eq_ok.mp hfree
  have hnone : m.disk.snapshot = none := by
    split at hfree
    · cases hfree
    · next hsome => simpa using hsome
  rcases Call.check_bind_cases h with ⟨e, -, rfl, rfl⟩ | ⟨⟨⟩, hlock, h⟩
  · exact .inl ⟨e, rfl, rfl⟩
  rcases Call.check_bind_cases h with ⟨e, -, rfl, rfl⟩ | ⟨-, -, h⟩
  · exact .inl ⟨e, rfl, rfl⟩
  rcases Call.check_bind_cases h with ⟨e, -, rfl, rfl⟩ | ⟨kdf, hkdf, h⟩
  · exact .inl ⟨e, rfl, rfl⟩
  obtain rfl := Kdf.checked_eq_ok hkdf
  rcases Call.check_bind_cases h with ⟨e, -, rfl, rfl⟩ | ⟨key, hkey, h⟩
  · exact .inl ⟨e, rfl, rfl⟩
  exact .inr ⟨hdirectory, hstat, hlock, hnone, key, hkey⟩

theorem checked_of_under {password : Bytes} {crypto : StoreCrypto} (h : crypto.Under password) :
    crypto.kdf.checked = .ok crypto.kdf := by
  obtain ⟨kdf, hkdf, -⟩ := bind_eq_ok.mp h
  rw [hkdf, Kdf.checked_eq_ok hkdf]

theorem wf_emptyStore : emptyStore.Wf := ⟨by simp [emptyStore], by simp [emptyStore], Nat.zero_le _⟩

/-- How the first commit ends: with a snapshot exactly if its rename took effect, and with a handle
that holds the empty store exactly if all five steps returned. -/
structure FoundEnd (init : Init) (m m' : UnixMedium) (r : Reply Error Keystore) : Prop where
  spans : Spans 5 m.fates m'.fates r
  snapshot : m'.disk.snapshot.isSome ↔ Fate.clean 1 m.fates ∧ Fate.installs (m.fates.drop 1)
  opened : ∀ ks, r = .ok ks → ks.memory = some emptyStore ∧ ks.crypto.Under init.password

theorem createWith_end (hl : Crypto.Lawful) (hshort : Crypto.TakesShort) {answers : Answers}
    {init : Init} {m m' : UnixMedium} {r : Reply Error Keystore} (hf : Founds answers init m)
    (h : createWith answers init m = (r, m')) : FoundEnd init m m' r := by
  obtain ⟨key, hkey⟩ := hf.key
  have hunder : (⟨key, init.kdf, init.salt, init.nonceSeed⟩ : StoreCrypto).Under init.password := hkey
  have hkdf : init.kdf.checked = .ok init.kdf := checked_of_under hunder
  have hfree : refuseOccupied answers m.disk = .ok () := by
    simp [refuseOccupied, hf.stat, hf.free, ok_bind]
  obtain ⟨image, himage⟩ : ∃ image,
      imageOf ⟨key, init.kdf, init.salt, init.nonceSeed⟩ emptyStore = .ok image :=
    imageOf_ok hl hshort hkdf wf_emptyStore
  have hseal : (fresh init init.kdf key).sealImage [] 0 = .ok image := himage
  simp only [createWith, hf.directory, hfree, hf.lock, hkdf, hkey, hseal, Call.check_ok, Call.pure_bind,
    Call.get_bind] at h
  have hkept {reply : Reply Error Unit} {u : UnixMedium} (hparent : fsyncParent m = (reply, u)) :
      u.disk = m.disk := by
    rcases mediumStep_cases hparent with ⟨-, hu⟩ | ⟨-, hu | ⟨left, hu⟩⟩ <;> exact hu
  have hnone {reply : Reply Error Unit} (hparent : fsyncParent m = (reply, m'))
      (hreply : ∀ a, reply ≠ .ok a) :
      m'.disk.snapshot.isSome ↔ Fate.clean 1 m.fates ∧ Fate.installs (m.fates.drop 1) := by
    rw [hkept hparent, hf.free, (mediumStep_spans hparent).not_clean hreply]
    simp
  rcases Call.bind_cases h with ⟨⟨⟩, u, hparent, h⟩ | ⟨e, hparent, rfl⟩ | ⟨hparent, rfl⟩
  · have hspan := mediumStep_spans hparent
    rw [commit] at h
    rcases hsteps : Layout.steps image u with ⟨reply, u'⟩
    have hspans := hspan.next (steps_spans hsteps)
    have hsnapshot : u'.disk.snapshot.isSome ↔
        Fate.clean 1 m.fates ∧ Fate.installs (m.fates.drop 1) := by
      rw [(steps_fates hsteps).snapshot, hspan.rest ⟨_, rfl⟩, hkept hparent, hf.free,
        hspan.ok.mp ⟨_, rfl⟩]
      split
      · next hinstalls => exact iff_of_true rfl ⟨rfl, hinstalls⟩
      · next hinstalls => exact iff_of_false (by simp) fun h => hinstalls h.2
    rcases reply with ⟨⟨⟩⟩ | e | _ <;> rw [hsteps] at h <;> cases h
    · refine ⟨(Spans.congr_reply (by simp) (by simp)).mp hspans, hsnapshot, fun ks hks => ?_⟩
      cases hks
      exact ⟨rfl, hunder⟩
    · exact ⟨(Spans.congr_reply (by simp) (by simp)).mp hspans, hsnapshot, fun ks hks => by cases hks⟩
    · exact ⟨(Spans.congr_reply (by simp) (by simp)).mp hspans, hsnapshot, fun ks hks => by cases hks⟩
  · exact ⟨(mediumStep_spans hparent).refused e 4, hnone hparent (by simp), fun ks hks => by cases hks⟩
  · exact ⟨(mediumStep_spans hparent).killed 4, hnone hparent (by simp), fun ks hks => by cases hks⟩

/-- How a writer of an operation the store takes ends: a snapshot that was there stays or is replaced
by the new image, which a writer that returns has put there. -/
structure WriteEnd (s t : Opened UnixMedium) (p' : Parsed)
    (r : Reply Error (Option AdvanceReceipt)) : Prop where
  spans : Spans 4 s.medium.fates t.medium.fates r
  snapshot : s.medium.disk.snapshot.isSome → t.medium.disk.snapshot.isSome
  done : ∀ a, r = .ok a → t.ks.memory = some p' ∧ t.ks.crypto = s.ks.crypto ∧
    ∃ image, imageOf s.ks.crypto p' = .ok image ∧ t.medium.disk.snapshot = some image

theorem call_writes (hl : Crypto.Lawful) (hshort : Crypto.TakesShort) {s t : Opened UnixMedium}
    {p p' : Parsed} {op : Op} {r : Reply Error (Option AdvanceReceipt)} (hm : s.ks.memory = some p)
    (hkdf : s.ks.crypto.kdf.checked = .ok s.ks.crypto.kdf) (hnext : p.next op = .ok p')
    (hp' : p'.Wf) (h : op.call s = (r, t)) : WriteEnd s t p' r := by
  obtain ⟨image, himage⟩ := imageOf_ok hl hshort hkdf hp'
  rw [call_eq hm, hnext] at h
  simp only [settle, install, Call.get_bind, himage, Call.check_ok, Call.pure_bind, commit_bind] at h
  rcases hsteps : Layout.steps image s.medium with ⟨reply, m⟩
  have hspans := steps_spans hsteps
  have hsnapshot : s.medium.disk.snapshot.isSome → m.disk.snapshot.isSome := fun hsome => by
    rw [(steps_fates hsteps).snapshot]
    split
    · rfl
    · exact hsome
  rcases reply with ⟨⟨⟩⟩ | e | _ <;> rw [hsteps] at h <;> cases h
  · refine ⟨(Spans.congr_reply (by simp) (by simp)).mp hspans, hsnapshot, fun _ _ => ⟨rfl, rfl, image,
      himage, ?_⟩⟩
    rcases steps_cases hsteps with ⟨-, hdisk⟩ | ⟨⟨e, he⟩ | he, -⟩
    · exact congrArg Disk.snapshot hdisk
    · cases he
    · cases he
  · exact ⟨(Spans.congr_reply (by simp) (by simp)).mp hspans, hsnapshot, fun _ hr => by cases hr⟩
  · exact ⟨(Spans.congr_reply (by simp) (by simp)).mp hspans, hsnapshot, fun _ hr => by cases hr⟩

/-- The store once the master is adopted. -/
def adoptedStore (master : Secret) : Parsed := ⟨1, .empty, some master⟩

/-- The store `create` leaves: the master seed, and account 0 at its first index. -/
def firstStore (master : Secret) : Parsed :=
  ⟨2, OrdMap.empty.insert (Account.derive master 0).tag ⟨Account.derive master 0, none, none⟩, some master⟩

theorem wf_adoptedStore (master : Secret) : (adoptedStore master).Wf :=
  ⟨by simp [adoptedStore], by simp [adoptedStore], Nat.zero_le _⟩

theorem next_adoptMaster (master : Secret) :
    emptyStore.next (.adoptMaster master) = .ok (adoptedStore master) := rfl

theorem next_addFirst (master : Secret) :
    (adoptedStore master).next (.add (Account.derive master 0)) = .ok (firstStore master) := by
  have hstream : recomputedStreamId (some master) (Account.derive master 0) =
      .ok (MochimoWallet.streamId (deriveAccount master 0).seed) := by
    simp [recomputedStreamId, Account.derive]
  have hempty : (OrdMap.empty : OrdMap Tag Slot).values = [] := rfl
  have hgeneration : nextGeneration 1 (u64Max - 1) 1 = .ok 2 := rfl
  simp [Parsed.next, adoptedStore, OrdMap.contains, importedRoots, hempty, hstream, ok_bind, firstStore,
    hgeneration]

theorem wf_firstStore (master : Secret) : (firstStore master).Wf := by
  have hget {tag : Tag} {slot : Slot} (h : (firstStore master).slots.get? tag = some slot) :
      tag = (Account.derive master 0).tag ∧ slot = ⟨Account.derive master 0, none, none⟩ := by
    rw [firstStore, OrdMap.get?_insert] at h
    split at h
    · next htag => cases h; exact ⟨htag, rfl⟩
    · cases h
  refine ⟨fun h => ?_, fun h => ?_, ?_⟩
  · obtain ⟨rfl, rfl⟩ := hget h
    rfl
  · obtain ⟨rfl, rfl⟩ := hget h
    exact ⟨.inl rfl, fun _ h => (by cases h), fun _ h => (by cases h)⟩
  · refine (OrdMap.size_insert_le .empty _ _).trans ?_
    simp [maxAccounts, OrdMap.size, OrdMap.empty]

variable [Bip39]

/-- Nothing but the medium stands between the write and its first commit. -/
structure Reaches (answers : Answers) (words password : Text) (e : CreateEntropy) (m : UnixMedium) :
    Prop where
  long : minPasswordLen ≤ password.length
  seed : ∃ master, Mnemonic.masterSeedFromPhrase words [] = .ok master
  founds : Founds answers ⟨password.utf8, e.salt, e.nonceSeed, .recommended⟩ m

variable {answers : Answers} {words password : Text} {e : CreateEntropy} {m m' : UnixMedium}
  {r : Reply CreateError Tag} {master : Secret}

omit [Crypto] [Bip39] in
theorem shortPasswordChars_eq_none (h : minPasswordLen ≤ password.length) :
    shortPasswordChars password = none := by
  rw [shortPasswordChars, if_neg (by omega)]

theorem create_reaches (h : create answers words password e.salt e.nonceSeed m = (r, m')) :
    (∃ cause, r = .err cause ∧ m' = m) ∨ Reaches answers words password e m := by
  unfold create at h
  by_cases hlong : minPasswordLen ≤ password.length
  swap
  · have hshort : shortPasswordChars password = some password.length := if_pos (by omega)
    rw [hshort] at h
    cases h
    exact .inl ⟨_, rfl, rfl⟩
  rw [shortPasswordChars_eq_none hlong] at h
  dsimp only at h
  rcases hseed : Mnemonic.masterSeedFromPhrase words [] with cause | master <;> rw [hseed] at h
  · cases h
    exact .inl ⟨_, rfl, rfl⟩
  simp only [Except.mapError, Call.check_ok, Call.pure_bind] at h
  have hfounds {reply : Reply Error Keystore} {u : UnixMedium}
      (hcreate : createWith answers ⟨password.utf8, e.salt, e.nonceSeed, .recommended⟩ m = (reply, u))
      (hnot : ¬ ∃ cause, reply = .err cause ∧ u = m) : Reaches answers words password e m :=
    ⟨hlong, ⟨master, hseed⟩, (createWith_founds hcreate).resolve_left hnot⟩
  rcases Call.bind_cases h with ⟨ks, u, hmade, -⟩ | ⟨cause, hmade, rfl⟩ | ⟨hmade, rfl⟩ <;>
    obtain ⟨reply, hcreate, hreply⟩ := Call.mapErr_cases hmade
  · refine .inr (hfounds hcreate ?_)
    rintro ⟨cause, rfl, -⟩
    cases hreply
  · by_cases hsame : m' = m
    · exact .inl ⟨cause, rfl, hsame⟩
    · exact .inr (hfounds hcreate fun ⟨_, _, hu⟩ => hsame hu)
  · refine .inr (hfounds hcreate ?_)
    rintro ⟨cause, rfl, -⟩
    cases hreply

omit [Bip39] in
theorem withHandle_cases {ε α : Type} {ks : Keystore} {x : Call (Opened UnixMedium) ε α}
    {m m' : UnixMedium} {r : Reply ε α} (h : withHandle ks x m = (r, m')) :
    ∃ t, x ⟨ks, m⟩ = (r, t) ∧ m' = t.medium := by
  unfold withHandle at h
  rcases hx : x ⟨ks, m⟩ with ⟨r', t⟩
  rw [hx] at h
  cases h
  exact ⟨t, rfl, rfl⟩

/-- The two commits on the new handle. -/
def fill (master : Secret) : Call (Opened UnixMedium) Error Tag := do
  let _ ← adoptMaster master
  let account := Account.derive master 0
  let tag := account.tag
  add account
  pure tag

omit [Bip39] in
theorem fill_end (hl : Crypto.Lawful) (hshort : Crypto.TakesShort) {password : Bytes}
    {s t : Opened UnixMedium} {r : Reply Error Tag} (hm : s.ks.memory = some emptyStore)
    (hunder : s.ks.crypto.Under password) (h : fill master s = (r, t)) :
    Spans 8 s.medium.fates t.medium.fates r ∧
      (s.medium.disk.snapshot.isSome → t.medium.disk.snapshot.isSome) ∧
      ∀ tag, r = .ok tag → Reopens password t.medium (firstStore master) := by
  have hwrites {s t : Opened UnixMedium} {p p' : Parsed} {op : Op}
      {r : Reply Error (Option AdvanceReceipt)} (hm : s.ks.memory = some p)
      (hunder : s.ks.crypto.Under password) (hnext : p.next op = .ok p') (hp' : p'.Wf)
      (h : op.call s = (r, t)) : WriteEnd s t p' r :=
    call_writes hl hshort hm (checked_of_under hunder) hnext hp' h
  rcases hadopt : adoptMaster master s with ⟨r₁, u⟩
  have hfirst := hwrites hm hunder (next_adoptMaster master) (wf_adoptedStore master)
    (Call.map_apply (f := fun _ => none) hadopt)
  have hspans := Spans.map_iff.mp hfirst.spans
  rw [fill, Call.bind_apply, hadopt] at h
  rcases r₁ with durable | cause | _
  rotate_left
  · cases h
    exact ⟨hspans.refused cause 4, hfirst.snapshot, fun _ hr => by cases hr⟩
  · cases h
    exact ⟨hspans.killed 4, hfirst.snapshot, fun _ hr => by cases hr⟩
  obtain ⟨hm', hcrypto, -⟩ := hfirst.done _ rfl
  rcases hadd : add (Account.derive master 0) u with ⟨r₂, v⟩
  have hunder' : u.ks.crypto.Under password := hcrypto ▸ hunder
  have hsecond := hwrites hm' hunder' (next_addFirst master) (wf_firstStore master) (add_call hadd)
  cases (Call.map_apply (f := fun _ => (Account.derive master 0).tag) hadd).symm.trans h
  refine ⟨hspans.next (Spans.map_iff.mpr (Spans.map_iff.mp hsecond.spans)),
    fun hsome => hsecond.snapshot (hfirst.snapshot hsome), fun tag hr => ?_⟩
  rcases r₂ with ⟨⟨⟩⟩ | cause | _ <;> cases hr
  obtain ⟨-, -, image, himage, hsnapshot⟩ := hsecond.done _ rfl
  refine reopens_of_reading ?_
  rw [hsnapshot]
  exact World.reading_imageOf hl hunder' (wf_firstStore master).tags himage

/-- How the write ends: thirteen steps, and a snapshot exactly if the first commit put one there. -/
structure CreateEnd (password : Text) (master : Secret) (m m' : UnixMedium)
    (r : Reply CreateError Tag) : Prop where
  spans : Spans 13 m.fates m'.fates r
  snapshot : m'.disk.snapshot.isSome ↔ Fate.clean 1 m.fates ∧ Fate.installs (m.fates.drop 1)
  done : ∀ tag, r = .ok tag → Reopens password.utf8 m' (firstStore master)

theorem create_end (hl : Crypto.Lawful) (hshort : Crypto.TakesShort)
    (hreaches : Reaches answers words password e m)
    (hseed : Mnemonic.masterSeedFromPhrase words [] = .ok master)
    (h : create answers words password e.salt e.nonceSeed m = (r, m')) :
    CreateEnd password master m m' r := by
  simp only [create, shortPasswordChars_eq_none hreaches.long, hseed, Except.mapError, Call.check_ok,
    Call.pure_bind] at h
  rcases hmade : createWith answers ⟨password.utf8, e.salt, e.nonceSeed, .recommended⟩ m with ⟨r₁, m₁⟩
  have hfound := createWith_end hl hshort hreaches.founds hmade
  rw [Call.bind_apply, Call.mapErr] at h
  simp only [Storage.createWith, hmade] at h
  rcases r₁ with ks | cause | _
  rotate_left
  · cases h
    exact ⟨hfound.spans.refused _ 8, hfound.snapshot, fun _ hr => by cases hr⟩
  · cases h
    exact ⟨hfound.spans.killed 8, hfound.snapshot, fun _ hr => by cases hr⟩
  obtain ⟨hm, hunder⟩ := hfound.opened ks rfl
  obtain ⟨r₂, hhandle, rfl⟩ := Call.mapErr_cases h
  obtain ⟨t, hfill, rfl⟩ := withHandle_cases hhandle
  obtain ⟨hspans, hsnapshot, hdone⟩ := fill_end hl hshort hm hunder hfill
  have hclean : Fate.clean 1 m.fates ∧ Fate.installs (m.fates.drop 1) := by
    have hclean : Fate.clean (1 + 4) m.fates = true := hfound.spans.ok.mp ⟨ks, rfl⟩
    rw [Fate.clean_add, Bool.and_eq_true] at hclean
    exact ⟨hclean.1, Fate.installs_of_clean hclean.2⟩
  refine ⟨hfound.spans.next (Spans.mapErr_iff.mpr hspans),
    iff_of_true (hsnapshot (hfound.snapshot.mpr hclean)) hclean, fun tag hr => ?_⟩
  rcases r₂ with tag | cause | _ <;> cases hr
  exact hdone _ rfl

/-! ## The command -/

variable {host : Host} {fromPhrase : Bool} {entropy : Except Text CreateEntropy}
  {acquire : Except Text Terminal}

/-- All that is asked has been answered, and nothing but the medium stands between the command and its
first commit. -/
def Writes (host : Host) (fromPhrase : Bool) (entropy : Except Text CreateEntropy)
    (acquire : Except Text Terminal) (m : UnixMedium) : Prop :=
  ∃ term words password e said, acquire = .ok term ∧
    Agreed term entropy fromPhrase words password e said ∧ Reaches host.answers words password e m

/-- The ways the command ends: a refusal with the promise and nothing written, or a write, with the
report of how it ended. -/
inductive CreateRun (host : Host) (fromPhrase : Bool) (entropy : Except Text CreateEntropy)
    (acquire : Except Text Terminal) (m : UnixMedium) (s' : Scene UnixMedium) :
    Reply Empty Report → Prop where
  | refused {text : Text} (hpromise : promise <:+: text) (hm : s'.medium = m) :
      CreateRun host fromPhrase entropy acquire m s' (.ok (.refused text))
  | failed {cause : CreateError} (hwrites : Writes host fromPhrase entropy acquire m)
      (hfails : Fate.failsIn 13 m.fates)
      (hsnapshot : s'.medium.disk.snapshot.isSome ↔
        Fate.clean 1 m.fates ∧ Fate.installs (m.fates.drop 1)) :
      CreateRun host fromPhrase entropy acquire m s' (.ok (.unmade (host.display cause)))
  | killed (hfails : ¬ Fate.failsIn 13 m.fates) :
      CreateRun host fromPhrase entropy acquire m s' .killed
  | done {term : Terminal} {words password : Text} {e : CreateEntropy} {master : Secret} {tag : Tag}
      (hfails : ¬ Fate.failsIn 13 m.fates) (hacquire : acquire = .ok term)
      (hagreed : Agreed term entropy fromPhrase words password e s'.said)
      (hseed : Mnemonic.masterSeedFromPhrase words [] = .ok master)
      (hstore : Reopens password.utf8 s'.medium (firstStore master)) :
      CreateRun host fromPhrase entropy acquire m s' (.ok (reportOf host fromPhrase (.ok tag)))

/-- The write of an agreed phrase, as a way the command ends. -/
theorem making_run (hl : Crypto.Lawful) (hshort : Crypto.TakesShort) {term : Terminal}
    {said : List Said} {reply : Reply Report Report} {s' : Scene UnixMedium}
    (hacquire : acquire = .ok term) (hagreed : Agreed term entropy fromPhrase words password e said)
    (h : making host fromPhrase words password e ⟨m, said⟩ = (reply, s')) :
    ∃ r, CreateRun host fromPhrase entropy acquire m s' r ∧
      reply = match r with
        | .ok report => .ok report
        | .err _ | .killed => .killed := by
  obtain ⟨r', hcreate, rfl, rfl⟩ := making_cases h
  by_cases hreaches : Reaches host.answers words password e m
  swap
  · obtain ⟨cause, rfl, hm⟩ := (create_reaches hcreate).resolve_right hreaches
    exact ⟨_, .refused (promise_nothingWasCreated (host.display cause)) hm, rfl⟩
  obtain ⟨master, hseed⟩ := hreaches.seed
  have hend := create_end hl hshort hreaches hseed hcreate
  rcases r' with tag | cause | _
  · have hfails : ¬ Fate.failsIn 13 m.fates := fun hfails => by
      obtain ⟨cause, hcause⟩ := hend.spans.err.mpr hfails
      cases hcause
    exact ⟨_, .done hfails hacquire hagreed hseed (hend.done tag rfl), rfl⟩
  · exact ⟨_, .failed ⟨term, words, password, e, _, hacquire, hagreed, hreaches⟩
      (hend.spans.err.mp ⟨cause, rfl⟩) hend.snapshot, rfl⟩
  · have hfails : ¬ Fate.failsIn 13 m.fates := fun hfails => by
      obtain ⟨cause, hcause⟩ := hend.spans.err.mpr hfails
      cases hcause
    exact ⟨_, .killed hfails, rfl⟩

theorem orchestrate_run (hl : Crypto.Lawful) (hshort : Crypto.TakesShort) {r : Reply Empty Report}
    {s' : Scene UnixMedium} (h : orchestrate host fromPhrase entropy acquire ⟨m, []⟩ = (r, s')) :
    CreateRun host fromPhrase entropy acquire m s' r := by
  rw [orchestrate] at h
  rcases hrun : orchestrating host fromPhrase entropy acquire (⟨m, []⟩ : Scene UnixMedium) with
    ⟨reply, t⟩
  rw [hrun] at h
  rcases orchestrating_cases hrun with
    ⟨text, rfl, htext, hm⟩ | ⟨term, words, password, e, said, hacquire, -, hagreed, hwrite⟩
  · cases h
    exact .refused htext hm
  obtain ⟨r', hend, rfl⟩ := making_run hl hshort hacquire hagreed hwrite
  rcases r' with report | ⟨⟨⟩⟩ | _ <;> cases h
  · exact hend
  · exact hend

/-- Once the command gets to its write, it is refused exactly if a step of the write fails. -/
theorem orchestrate_fails (hl : Crypto.Lawful) (hshort : Crypto.TakesShort)
    (hwrites : Writes host fromPhrase entropy acquire m) (hfails : Fate.failsIn 13 m.fates) :
    ∃ cause s', orchestrate host fromPhrase entropy acquire ⟨m, []⟩ =
        (.ok (.unmade (host.display cause)), s') ∧
      (s'.medium.disk.snapshot.isSome ↔ Fate.clean 1 m.fates ∧ Fate.installs (m.fates.drop 1)) := by
  obtain ⟨term, words, password, e, said, hacquire, hagreed, hreaches⟩ := hwrites
  have hfree : host.occupied m = none := by
    simp [Host.occupied, HasSnapshots.snapshots, hreaches.founds.free]
  obtain ⟨master, hseed⟩ := hreaches.seed
  rcases hwrite : making host fromPhrase words password e ⟨m, said⟩ with ⟨reply, s'⟩
  obtain ⟨r', hcreate, -, rfl⟩ := making_cases hwrite
  have hend := create_end hl hshort hreaches hseed hcreate
  obtain ⟨cause, rfl⟩ := hend.spans.err.mpr hfails
  refine ⟨cause, s', ?_, hend.snapshot⟩
  rw [orchestrate, orchestrating_agreed hacquire hfree hagreed, hwrite]

/-- A refusal that says nothing was created leaves no snapshot that was not there; and a phrase that
was generated is a store's only once it was shown and read back. -/
structure KeepsPromise (host : Host) (fromPhrase : Bool) (entropy : Except Text CreateEntropy)
    (acquire : Except Text Terminal) (m : UnixMedium) : Prop where
  refused : ∀ report s', orchestrate host fromPhrase entropy acquire ⟨m, []⟩ = (.ok report, s') →
    report.code = .refused → promise <:+: report.text →
      ∀ image ∈ HasSnapshots.snapshots s'.medium, image ∈ HasSnapshots.snapshots m
  made : fromPhrase = false → ∀ report s',
    orchestrate host fromPhrase entropy acquire ⟨m, []⟩ = (.ok report, s') → report.code = .ok →
      ∃ e phrase answer password master, entropy = .ok e ∧
        Mnemonic.phraseFromEntropy e.phrase.1 = .ok phrase ∧
        .shown (phraseText phrase) (.ok ()) ∈ s'.said ∧
        .asked confirmPrompt (.ok answer) ∈ s'.said ∧ confirmationMatches phrase answer ∧
        .asked choosePrompt (.ok password) ∈ s'.said ∧
        Mnemonic.masterSeedFromPhrase phrase [] = .ok master ∧
        Reopens password.utf8 s'.medium (firstStore master)

/-- The promise is kept exactly unless the command gets as far as its write, the rename of the first
commit takes effect, and a step of the three commits fails. -/
theorem create_keeps_promise (hl : Crypto.Lawful) (hshort : Crypto.TakesShort) (host : Host)
    (fromPhrase : Bool) (entropy : Except Text CreateEntropy) (acquire : Except Text Terminal)
    (m : UnixMedium) :
    KeepsPromise host fromPhrase entropy acquire m ↔
      ¬ (Writes host fromPhrase entropy acquire m ∧ Fate.clean 1 m.fates ∧
        Fate.installs (m.fates.drop 1) ∧ Fate.failsIn 13 m.fates) := by
  constructor
  · rintro hkeeps ⟨hwrites, hclean, hinstalls, hfails⟩
    obtain ⟨cause, s', hrun, hsnapshot⟩ := orchestrate_fails hl hshort hwrites hfails
    obtain ⟨image, himage⟩ := Option.isSome_iff_exists.mp (hsnapshot.mpr ⟨hclean, hinstalls⟩)
    obtain ⟨term, words, password, e, said, -, -, hreaches⟩ := hwrites
    have hmem := hkeeps.refused _ s' hrun rfl (promise_unmade _) image
      (by simp [HasSnapshots.snapshots, himage])
    simp [HasSnapshots.snapshots, hreaches.founds.free] at hmem
  · intro hnot
    refine ⟨fun report s' h hcode _ image himage => ?_, fun hgenerated report s' h hcode => ?_⟩
    · generalize hr : (Reply.ok report : Reply Empty Report) = r at h
      cases orchestrate_run hl hshort h with
      | refused _ hm => exact hm ▸ himage
      | failed hwrites hfails hsnapshot =>
        have hsome : s'.medium.disk.snapshot.isSome := by
          cases hs : s'.medium.disk.snapshot <;> simp [HasSnapshots.snapshots, hs] at himage ⊢
        obtain ⟨hclean, hinstalls⟩ := hsnapshot.mp hsome
        exact absurd ⟨hwrites, hclean, hinstalls, hfails⟩ hnot
      | killed => cases hr
      | done =>
        cases hr
        rw [reportOf_ok] at hcode
        cases hcode
    · generalize hr : (Reply.ok report : Reply Empty Report) = r at h
      cases orchestrate_run hl hshort h with
      | refused => cases hr; cases hcode
      | failed => cases hr; cases hcode
      | killed => cases hr
      | done _ _ hagreed hseed hstore =>
        subst hgenerated
        generalize hsaid : s'.said = said at hagreed
        cases hagreed with
        | shown hchosen he hwords hshown hanswer hmatch =>
          refine ⟨_, _, _, _, _, he, hwords, ?_, ?_, hmatch, ?_, hseed, hstore⟩
          · simp
          · simp
          · simp [typed]

end

section
attribute [local instance] Crypto.copying

/-- Words that are numbers, and a stretching that keeps the first bytes of the phrase. -/
@[reducible] def numbered : Bip39 := ⟨(List.range 2048).map Text.ofNat, fun password _ _ => fit 64 password⟩

attribute [local instance] numbered

def zeros : CreateEntropy := ⟨.zero 32, .zero saltLen, .zero nonceSeedLen⟩

/-- A terminal that writes, and an operator who types one password and reads three words back. -/
def operator : Terminal :=
  ⟨fun _ _ => .ok (), fun _ _ => .ok "a fine answer".toList, fun _ _ => .ok "0 0 0".toList⟩

def home : Host := ⟨"wallet".toList, true, .good, fun _ => "the disk is full".toList⟩

/-- A new directory, on a disk that is full once the empty store is in it. -/
def diskFull : UnixMedium :=
  ⟨⟨none, none, none⟩,
    [.done, .done, .done, .done, .done, .failed false none (.io "write_temp write" (.other 28))], []⟩

/-- The command and what it leaves, run over `diskFull`. -/
def filling : Reply Empty Report × Scene UnixMedium :=
  orchestrate home false (.ok zeros) (.ok operator) ⟨diskFull, []⟩

theorem create_keeps_promise_diskFull :
    KeepsPromise home false (.ok zeros) (.ok operator) diskFull ↔
      ¬ (Writes home false (.ok zeros) (.ok operator) diskFull ∧ Fate.clean 1 diskFull.fates ∧
        Fate.installs (diskFull.fates.drop 1) ∧ Fate.failsIn 13 diskFull.fates) :=
  create_keeps_promise Crypto.copying_lawful (fun _ _ _ _ _ => rfl) home false (.ok zeros)
    (.ok operator) diskFull

/-- The operator is told that nothing was created, and the empty store is in the directory. -/
theorem create_refused_over_store :
    filling.1 = .ok (.unmade "the disk is full".toList) ∧ filling.2.medium.disk.snapshot.isSome ∧
      ¬ KeepsPromise home false (.ok zeros) (.ok operator) diskFull := by
  have hrun : filling.1 = .ok (.unmade "the disk is full".toList) ∧
      filling.2.medium.disk.snapshot.isSome := by decide +kernel
  refine ⟨hrun.1, hrun.2, fun hkeeps => ?_⟩
  obtain ⟨image, himage⟩ := Option.isSome_iff_exists.mp hrun.2
  have hfilling : filling = (.ok (.unmade "the disk is full".toList), filling.2) := by rw [← hrun.1]
  have hmem := hkeeps.refused (.unmade "the disk is full".toList) filling.2 hfilling rfl
    (promise_unmade _) image (by simp [HasSnapshots.snapshots, himage])
  simp [HasSnapshots.snapshots, diskFull] at hmem

end

end MochimoWallet.Cli
