import MochimoWallet.Keystore.Processes
import MochimoWallet.Keystore.Reservations

/-!
# One writer, one lineage

What the lock buys. `Owns` is having the lock of the file that the lock's entry names: nothing
takes that entry away, so two owners are one process. Who owns it can count on everything but the
locks of others staying as it is (`Rely`), and each process leaves what the others count on
(`Guar`). Under that discipline the temporary file between its creation and its rename is the
owner's, and a handle's memory is what the snapshot says (`Having`); `Sound` says so of every
process, and every step of every process keeps it.
-/

namespace MochimoWallet.Keystore.Shared

open Codec Discipline

section
variable {P : Type} {i j : P} {ℓ n : ℕ} {s t u : Files P}

/-! ## What a process counts on -/

/-- `i` has the lock of the file that the lock's entry names. -/
structure Owns (i : P) (ℓ : ℕ) (s : Files P) : Prop where
  entry : s.lock = some ℓ
  held : s.held ℓ = some i

theorem Owns.eq (hi : Owns i ℓ s) (hj : Owns j n s) : i = j := by
  obtain rfl := Option.some.inj (hi.entry.symm.trans hj.entry)
  exact Option.some.inj (hi.held.symm.trans hj.held)

/-- Everything but the locks. -/
structure SameView (s t : Files P) : Prop where
  snapshot : t.snapshot = s.snapshot
  temp : t.temp = s.temp
  content : t.content = s.content
  made : t.made = s.made

theorem SameView.refl (s : Files P) : SameView s s := ⟨rfl, rfl, rfl, rfl⟩

theorem SameView.trans (h : SameView s t) (h' : SameView t u) : SameView s u :=
  ⟨h'.snapshot.trans h.snapshot, h'.temp.trans h.temp, h'.content.trans h.content,
    h'.made.trans h.made⟩

theorem SameView.shown (h : SameView s t) : t.shown = s.shown := by
  rw [Files.shown, Files.shown, h.snapshot, h.content]

/-- What `i` counts on the others for. -/
structure Rely (i : P) (s t : Files P) : Prop where
  entry : ∀ n, s.lock = some n → t.lock = some n
  held : ∀ n, s.held n = some i → t.held n = some i
  view : ∀ ℓ, Owns i ℓ s → SameView s t

theorem Owns.stable (h : Owns i ℓ s) (hrely : Rely i s t) : Owns i ℓ t :=
  ⟨hrely.entry ℓ h.entry, hrely.held ℓ h.held⟩

theorem Rely.refl (i : P) (s : Files P) : Rely i s s := ⟨fun _ h => h, fun _ h => h, fun _ _ => .refl s⟩

theorem Rely.trans (h : Rely i s t) (h' : Rely i t u) : Rely i s u where
  entry n hn := h'.entry n (h.entry n hn)
  held n hn := h'.held n (h.held n hn)
  view ℓ hown := (h.view ℓ hown).trans (h'.view ℓ (hown.stable h))

/-- The snapshot's entry and what it shows, as they were. -/
structure Kept (s t : Files P) : Prop where
  entry : t.snapshot = s.snapshot
  shown : t.shown = s.shown

/-- What `i` leaves the others, with the installs it may make and whether its locks stay. -/
structure Guar (i : P) (installs : Files P → Files P → Prop) (keeps : Prop) (s t : Files P) :
    Prop where
  others : ∀ j, j ≠ i → Rely j s t
  entry : Kept s t ∨ installs s t
  owns : keeps → ∀ ℓ, Owns i ℓ s → Owns i ℓ t

variable {installs : Files P → Files P → Prop} {keeps : Prop}

theorem Guar.refl : Guar i installs keeps s s :=
  ⟨fun j _ => .refl j s, .inl ⟨rfl, rfl⟩, fun _ _ h => h⟩

/-- A call that changes locks at most. -/
theorem Guar.ofView (hview : SameView s t) (hentry : ∀ n, s.lock = some n → t.lock = some n)
    (hothers : ∀ j n, j ≠ i → s.held n = some j → t.held n = some j)
    (hheld : keeps → ∀ n, s.held n = some i → t.held n = some i) : Guar i installs keeps s t :=
  ⟨fun j hj => ⟨hentry, fun n => hothers j n hj, fun _ _ => hview⟩,
    .inl ⟨hview.snapshot, hview.shown⟩, fun hkeeps ℓ hown =>
      ⟨hentry ℓ hown.entry, hheld hkeeps ℓ hown.held⟩⟩

/-- A call of the owner that changes no lock. -/
theorem Guar.ofOwner (hown : Owns i ℓ s) (hlock : t.lock = s.lock) (hheld : t.held = s.held)
    (hentry : Kept s t ∨ installs s t) : Guar i installs keeps s t where
  others _ hj := {
    entry := fun _ hn => hlock.trans hn
    held := fun n hn => (congrFun hheld n).trans hn
    view := fun _ hother => absurd (hother.eq hown) hj }
  entry := hentry
  owns _ n h := ⟨hlock.trans h.entry, (congrFun hheld n).trans h.held⟩

variable [DecidableEq P]

/-- A process's discipline. -/
def discipline (i : P) (installs : Files P → Files P → Prop) (keeps : Prop) :
    Discipline (Files P) FileOp FileOp.Answer where
  act := FileOp.act i
  rely := Rely i
  guar := Guar i installs keeps
  refl := Rely.refl i
  trans := Rely.trans

/-! ## Calls -/

/-- A call and its refusal: whichever it is, the call leaves what the others count on, and a
failure ends in `E`. -/
theorem safe_ask {α : Type} {o : FileOp} {refusal : o.Refusal → Error} {f : o.Value → Fs α}
    {A E : Files P → Prop} {R : o.Value → Files P → Prop} {Q : α → Files P → Prop}
    (hA : (discipline i installs keeps).Stable A) (hE : (discipline i installs keeps).Stable E)
    (h : A s)
    (hdoes : ∀ {s v t}, A s → o.Does i s v t → Guar i installs keeps s t ∧ R v t)
    (hfailed : ∀ {s}, A s → E s) (hreturned : ∀ {v s}, R v s → E s)
    (hnext : ∀ v t, R v t → (discipline i installs keeps).Safe Q (fun _ => E) (f v) t) :
    (discipline i installs keeps).Safe Q (fun _ => E) (ask o refusal >>= f) s := by
  refine Safe.op hA h fun t x u ht hact => ?_
  rcases x with e | v
  · have hstep : Guar i installs keeps t u ∧ E u := by
      rcases hact with rfl | ⟨v, hact⟩
      · exact ⟨.refl, hfailed ht⟩
      · obtain ⟨hguar, hR⟩ := hdoes ht hact
        exact ⟨hguar, hreturned hR⟩
    exact ⟨hstep.1, Safe.fail hE hstep.2⟩
  · obtain ⟨hguar, hR⟩ := hdoes ht hact
    exact ⟨hguar, hnext v u hR⟩

theorem stable_true : (discipline i installs keeps).Stable fun _ => True := fun _ _ => trivial

theorem stable_owns : (discipline i installs keeps).Stable (Owns i ℓ) := fun h hrely => h.stable hrely

/-- The owner's snapshot shows `shown`. -/
structure Shows (i : P) (ℓ : ℕ) (shown : Option Bytes) (s : Files P) : Prop where
  owns : Owns i ℓ s
  shown : s.shown = shown

theorem stable_shows {shown : Option Bytes} :
    (discipline i installs keeps).Stable (Shows i ℓ shown) := fun h hrely =>
  ⟨h.owns.stable hrely, (hrely.view ℓ h.owns).shown.trans h.shown⟩

/-! ## The lock -/

theorem does_openLock {v : FileOp.openLock.Value} (h : FileOp.openLock.Does i s v t) :
    Guar i installs keeps s t ∧ t.lock = some v := by
  rcases h with ⟨hlock, rfl⟩ | ⟨hlock, rfl, rfl⟩
  · exact ⟨.refl, hlock⟩
  · refine ⟨.ofView ⟨rfl, rfl, rfl, rfl⟩ (fun n hn => ?_) (fun _ _ _ h => h) fun _ _ h => h, rfl⟩
    rw [hlock] at hn
    cases hn

theorem does_tryLock {v : (FileOp.tryLock n).Value} (hentry : s.lock = some n)
    (h : (FileOp.tryLock n).Does i s v t) :
    Guar i installs keeps s t ∧ t.lock = some n ∧ (v = true → Owns i n t) := by
  rcases Bool.eq_false_or_eq_true v with rfl | rfl
  · obtain ⟨hfree, rfl⟩ := h
    have hother {j : P} {m : ℕ} (hm : s.held m = some j) : (s.locked i n).held m = some j := by
      have hne : m ≠ n := by
        rintro rfl
        rw [hfree] at hm
        cases hm
      exact (Function.update_of_ne hne _ _).trans hm
    exact ⟨.ofView ⟨rfl, rfl, rfl, rfl⟩ (fun _ h => h) (fun _ _ _ => hother) fun _ _ => hother, hentry,
      fun _ => ⟨hentry, Function.update_self ..⟩⟩
  · obtain ⟨-, rfl⟩ := h
    exact ⟨.refl, hentry, nofun⟩

/-- A descriptor closed releases no lock but its own process's. -/
theorem guar_closed : Guar i installs False s (s.closed i n) :=
  .ofView ⟨rfl, rfl, rfl, rfl⟩ (fun _ h => h) (fun j m hj hm => by
    have hne : s.held m ≠ some i := by rw [hm]; exact fun h => hj (Option.some.inj h)
    exact (if_neg fun h => hne h.2).trans hm) nofun

theorem act_closeLock {x : (FileOp.closeLock n).Answer} (h : (FileOp.closeLock n).act i s x t) :
    Guar i installs False s t := by
  rcases x with e | v
  · rcases h with rfl | ⟨_, rfl⟩
    · exact .refl
    · exact guar_closed
  · obtain rfl := h
    exact guar_closed

theorem safe_takeLock : (discipline i installs False).Safe (Owns i) (fun _ _ => True) takeLock s := by
  refine safe_ask (o := .openLock) (A := fun _ => True) (R := fun file t => t.lock = some file) stable_true stable_true
    trivial (fun _ h => does_openLock h) (fun _ => trivial) (fun _ => trivial) fun file t hentry => ?_
  refine Safe.onFail (F := fun _ _ => True) ?_ (fun _ => stable_true) fun _ _ _ _ _ hact =>
    ⟨act_closeLock hact, trivial⟩
  refine safe_ask (o := .tryLock file) (A := fun t => t.lock = some file)
    (R := fun taken t => t.lock = some file ∧ (taken = true → Owns i file t))
    (fun h hrely => hrely.entry file h) stable_true hentry (fun h hdoes => does_tryLock h hdoes)
    (fun _ => trivial) (fun _ => trivial) fun taken t ht => ?_
  rcases Bool.eq_false_or_eq_true taken with rfl | rfl
  · exact Safe.ret stable_owns (ht.2 rfl)
  · exact Safe.fail stable_true trivial

/-! ## The owner's calls -/

theorem safe_unlinkTemp {α : Type} {refusal : ErrorKind → Error} {f : Unit → Fs α}
    {shown : Option Bytes} {Q : α → Files P → Prop} (h : Shows i ℓ shown s)
    (hnext : ∀ t, Shows i ℓ shown t →
      (discipline i installs keeps).Safe Q (fun _ => Owns i ℓ) (f ()) t) :
    (discipline i installs keeps).Safe Q (fun _ => Owns i ℓ)
      (ask .unlinkTemp refusal >>= f) s := by
  refine safe_ask (o := .unlinkTemp) (R := fun _ => Shows i ℓ shown) stable_shows stable_owns h
    (fun {s v t} hs hdoes => ?_) (fun h => h.owns) (fun h => h.owns) fun _ t => hnext t
  obtain rfl : t = s.withoutTemp := hdoes
  exact ⟨.ofOwner hs.owns rfl rfl (.inl ⟨rfl, rfl⟩), ⟨hs.owns.entry, hs.owns.held⟩, hs.shown⟩

/-- A call that changes nothing, made where `A` holds and told `R` of it. -/
theorem safe_look {α : Type} {o : FileOp} {refusal : o.Refusal → Error} {f : o.Value → Fs α}
    {A E : Files P → Prop} {Q : α → Files P → Prop} (R : o.Value → Files P → Prop)
    (hA : (discipline i installs keeps).Stable A) (hE : (discipline i installs keeps).Stable E)
    (h : A s) (hdoes : ∀ {s v t}, A s → o.Does i s v t → t = s ∧ R v s) (hfailed : ∀ {s}, A s → E s)
    (hnext : ∀ v t, A t → R v t → (discipline i installs keeps).Safe Q (fun _ => E) (f v) t) :
    (discipline i installs keeps).Safe Q (fun _ => E) (ask o refusal >>= f) s := by
  refine safe_ask (R := fun v t => A t ∧ R v t) hA hE h (fun hs hact => ?_) hfailed
    (fun h => hfailed h.1) fun v t ht => hnext v t ht.1 ht.2
  obtain ⟨rfl, hR⟩ := hdoes hs hact
  exact ⟨.refl, hs, hR⟩

/-- The owner's commit before its rename: the snapshot shows `shown`, and `image` is in the temporary
file, which the owner made. -/
structure Staged (i : P) (ℓ : ℕ) (shown : Option Bytes) (n : ℕ) (image : Bytes) (s : Files P) :
    Prop where
  owns : Owns i ℓ s
  shown : s.shown = shown
  temp : s.temp = some n
  made : s.made n = some i
  content : s.content n = image
  apart : s.snapshot ≠ some n

theorem stable_staged {shown : Option Bytes} {image : Bytes} :
    (discipline i installs keeps).Stable (Staged i ℓ shown n image) := by
  intro s t h hrely
  have hview := hrely.view ℓ h.owns
  exact ⟨h.owns.stable hrely, hview.shown.trans h.shown, hview.temp.trans h.temp,
    (congrFun hview.made n).trans h.made, (congrFun hview.content n).trans h.content,
    hview.snapshot ▸ h.apart⟩

/-- `i` has renamed the temporary file it made, with `image` in it, over the snapshot. -/
structure Install (i : P) (shown : Option Bytes) (image : Bytes) (s t : Files P) : Prop where
  before : s.shown = shown
  own : ∃ n, s.temp = some n ∧ s.made n = some i ∧ t.snapshot = some n
  after : t.shown = some image

omit [DecidableEq P] in
/-- What is written to a file that the snapshot's entry does not name is not shown. -/
theorem shown_update {bytes : Bytes} (hcontent : t.content = Function.update s.content n bytes)
    (hsnapshot : t.snapshot = s.snapshot) (hapart : s.snapshot ≠ some n) : t.shown = s.shown := by
  rw [Files.shown, Files.shown, hsnapshot, hcontent]
  rcases h : s.snapshot with _ | m
  · rfl
  · have hne : m ≠ n := fun hm => hapart (hm ▸ h)
    exact congrArg some (Function.update_of_ne hne _ _)

theorem does_createTemp {shown : Option Bytes} {v : FileOp.createTemp.Value} (h : Shows i ℓ shown s)
    (hdoes : FileOp.createTemp.Does i s v t) :
    Guar i installs keeps s t ∧ Staged i ℓ shown v [] t := by
  obtain ⟨-, rfl, rfl⟩ := hdoes
  have hapart : s.snapshot ≠ some s.next := fun h => absurd (s.named _ (.inl h)) (lt_irrefl _)
  have hshown : (s.withTemp i).shown = s.shown := shown_update rfl rfl hapart
  exact ⟨.ofOwner h.owns rfl rfl (.inl ⟨rfl, hshown⟩), ⟨h.owns.entry, h.owns.held⟩,
    hshown.trans h.shown, rfl, Function.update_self .., Function.update_self .., hapart⟩

theorem does_append {shown : Option Bytes} {image : Bytes} {byte : UInt8}
    {v : (FileOp.append n byte).Value} (h : Staged i ℓ shown n image s)
    (hdoes : (FileOp.append n byte).Does i s v t) :
    Guar i installs keeps s t ∧ Staged i ℓ shown n (image ++ [byte]) t := by
  obtain rfl : t = s.appended n byte := hdoes
  have hshown : (s.appended n byte).shown = s.shown := shown_update rfl rfl h.apart
  exact ⟨.ofOwner h.owns rfl rfl (.inl ⟨rfl, hshown⟩), ⟨h.owns.entry, h.owns.held⟩,
    hshown.trans h.shown, h.temp, h.made, (Function.update_self ..).trans (h.content ▸ rfl), h.apart⟩

theorem safe_writeAll {shown : Option Bytes} {done : Bytes} (image : Bytes)
    (h : Staged i ℓ shown n done s) :
    (discipline i installs keeps).Safe (fun _ => Staged i ℓ shown n (done ++ image))
      (fun _ => Owns i ℓ) (writeAll n image) s := by
  induction image generalizing done s with
  | nil =>
    rw [List.append_nil]
    exact Safe.ret stable_staged h
  | cons byte image ih =>
    refine safe_ask (o := .append n byte) (R := fun _ => Staged i ℓ shown n (done ++ [byte]))
      stable_staged stable_owns h (fun h hdoes => does_append h hdoes) (fun h => h.owns)
      (fun h => h.owns) fun _ t ht => ?_
    rw [List.append_cons]
    exact ih ht

theorem safe_writeTemp {shown : Option Bytes} (image : Bytes) (h : Shows i ℓ shown s) :
    (discipline i installs keeps).Safe (fun n => Staged i ℓ shown n image) (fun _ => Owns i ℓ)
      (writeTemp image) s := by
  refine safe_unlinkTemp h fun t ht => ?_
  refine safe_ask (o := .createTemp) (R := fun n => Staged i ℓ shown n []) stable_shows stable_owns ht
    (fun h hdoes => does_createTemp h hdoes) (fun h => h.owns) (fun h => h.owns) fun n u hu => ?_
  exact Safe.bind (safe_writeAll image hu) fun _ _ h => Safe.ret stable_staged h

theorem does_replace {shown : Option Bytes} {image : Bytes} {v : FileOp.replace.Value}
    (hinstall : ∀ s t, Install i shown image s t → installs s t) (h : Staged i ℓ shown n image s)
    (hdoes : FileOp.replace.Does i s v t) :
    Guar i installs keeps s t ∧ Shows i ℓ (some image) t := by
  obtain ⟨-, rfl⟩ := hdoes
  have hafter : s.replaced.shown = some image := by
    show s.temp.map s.content = some image
    rw [h.temp, Option.map_some, h.content]
  exact ⟨.ofOwner h.owns rfl rfl (.inr (hinstall _ _ ⟨h.shown, ⟨n, h.temp, h.made, h.temp⟩, hafter⟩)),
    ⟨h.owns.entry, h.owns.held⟩, hafter⟩

/-- A commit of the owner: its one change to the snapshot is the install of `image`. -/
theorem safe_commit {shown : Option Bytes} {image : Bytes}
    (hinstall : ∀ s t, Install i shown image s t → installs s t) (h : Shows i ℓ shown s) :
    (discipline i installs keeps).Safe (fun _ => Shows i ℓ (some image)) (fun _ => Owns i ℓ)
      (commit image) s := by
  refine Safe.bind (safe_writeTemp image h) fun n t ht => ?_
  refine safe_look (o := .syncFile n) (fun _ _ => True) stable_staged stable_owns ht
    (fun _ hdoes => ⟨hdoes, trivial⟩) (fun h => h.owns) fun _ u hu _ => ?_
  refine safe_ask (o := .replace) (R := fun _ => Shows i ℓ (some image)) stable_staged stable_owns hu
    (fun h hdoes => does_replace hinstall h hdoes) (fun h => h.owns) (fun h => h.owns) fun _ v hv => ?_
  rw [← Prog.bind_pure (ask .syncDir _)]
  exact safe_look (o := .syncDir) (fun _ _ => True) stable_shows stable_owns hv
    (fun _ hdoes => ⟨hdoes, trivial⟩) (fun h => h.owns) fun _ _ h _ => Safe.ret stable_shows h

/-! ## Reading the snapshot -/

/-- The owner reads the file `n`, which the snapshot's entry names. -/
structure Reading (i : P) (ℓ n : ℕ) (image : Bytes) (s : Files P) : Prop where
  owns : Owns i ℓ s
  entry : s.snapshot = some n
  content : s.content n = image

theorem stable_reading {image : Bytes} :
    (discipline i installs keeps).Stable (Reading i ℓ n image) := fun h hrely =>
  ⟨h.owns.stable hrely, (hrely.view ℓ h.owns).snapshot.trans h.entry,
    (congrFun (hrely.view ℓ h.owns).content n).trans h.content⟩

theorem safe_readAt {α : Type} {image : Bytes} {offset : ℕ} {refusal : ErrorKind → Error}
    {f : Option UInt8 → Fs α} {Q : α → Files P → Prop} (h : Reading i ℓ n image s)
    (hnext : ∀ t, Reading i ℓ n image t →
      (discipline i installs keeps).Safe Q (fun _ => Owns i ℓ) (f image[offset]?) t) :
    (discipline i installs keeps).Safe Q (fun _ => Owns i ℓ)
      (ask (.readAt n offset) refusal >>= f) s := by
  refine safe_look (o := .readAt n offset) (fun (v : Option UInt8) _ => v = image[offset]?)
    stable_reading stable_owns h (fun {s v t} h hdoes => ?_) (fun h => h.owns) ?_
  · obtain ⟨hv, rfl⟩ := hdoes
    exact ⟨rfl, hv.trans (h.content ▸ rfl)⟩
  · rintro v t ht rfl
    exact hnext t ht

theorem safe_readExact {image : Bytes} (len offset : ℕ) (h : Reading i ℓ n image s) :
    (discipline i installs keeps).Safe
      (fun read t => read = (image.drop offset).take len ∧ Reading i ℓ n image t)
      (fun _ => Owns i ℓ) (readExact n offset len) s := by
  induction len generalizing offset s with
  | zero => exact Safe.ret (fun h hrely => ⟨h.1, stable_reading h.2 hrely⟩) ⟨rfl, h⟩
  | succ len ih =>
    refine safe_readAt h fun t ht => ?_
    rcases hbyte : image[offset]? with _ | byte
    · exact Safe.fail stable_owns ht.owns
    · refine Safe.bind (ih (offset + 1) ht) fun rest u hu => ?_
      refine Safe.ret (fun h hrely => ⟨h.1, stable_reading h.2 hrely⟩) ⟨?_, hu.2⟩
      obtain ⟨hlt, hget⟩ := List.getElem?_eq_some_iff.mp hbyte
      rw [hu.1, List.drop_eq_getElem_cons hlt, List.take_succ_cons, hget]

/-- What the owner reads is what the snapshot shows. -/
theorem safe_readSnapshot (h : Owns i ℓ s) :
    (discipline i installs keeps).Safe (fun image => Shows i ℓ (some image)) (fun _ => Owns i ℓ)
      readSnapshot s := by
  refine safe_ask (o := .openSnapshot) (R := fun (n : ℕ) t => Owns i ℓ t ∧ t.snapshot = some n)
    stable_owns stable_owns h (fun {s v t} h hdoes => ?_) (fun h => h) (fun h => h.1) fun n t ht => ?_
  · obtain ⟨hn, rfl⟩ := hdoes
    exact ⟨.refl, h, hn⟩
  have ht : Reading i ℓ n (t.content n) t := ⟨ht.1, ht.2, rfl⟩
  refine safe_look (o := .size n) (fun (len : ℕ) _ => len = (t.content n).length) stable_reading
    stable_owns ht (fun {s v t} h hdoes => ?_) (fun h => h.owns) ?_
  · obtain ⟨hv, rfl⟩ := hdoes
    exact ⟨rfl, hv.trans (h.content ▸ rfl)⟩
  rintro len u hu rfl
  by_cases hlen : (t.content n).length > maxImageLen
  · rw [if_pos hlen]
    exact Safe.fail stable_owns hu.owns
  rw [if_neg hlen]
  refine Safe.bind (safe_readExact _ 0 hu) fun image v hv => ?_
  refine safe_readAt hv.2 fun w hw => ?_
  rw [List.getElem?_eq_none (le_refl _), Option.isSome_none, if_neg nofun]
  have himage : image = t.content n := by rw [hv.1, List.drop_zero, List.take_length]
  have hshown : w.shown = some image := by
    rw [Files.shown, hw.entry, Option.map_some, hw.content, himage]
  exact Safe.ret stable_shows ⟨hw.owns, hshown⟩

/-! ## The commands -/

theorem safe_refuseOccupied {A B E : Files P → Prop} (hA : (discipline i installs keeps).Stable A)
    (hB : (discipline i installs keeps).Stable B) (hE : (discipline i installs keeps).Stable E)
    (h : A s) (hfree : ∀ {s}, A s → s.snapshot = none → B s) (hfailed : ∀ {s}, A s → E s) :
    (discipline i installs keeps).Safe (fun _ => B) (fun _ => E) refuseOccupied s := by
  refine safe_ask (o := .statSnapshot) (R := fun (occupied : Bool) t => A t ∧ (occupied = false → B t))
    hA hE h (fun {s v t} h hdoes => ?_) hfailed (fun h => hfailed h.1) fun occupied t ht => ?_
  · obtain ⟨hv, rfl⟩ := hdoes
    refine ⟨.refl, h, fun hfalse => hfree h ?_⟩
    rw [hfalse] at hv
    exact Option.isNone_iff_eq_none.mp (Option.isSome_eq_false_iff.mp hv.symm)
  · rcases Bool.eq_false_or_eq_true occupied with rfl | rfl
    · exact Safe.fail hE (hfailed ht.1)
    · exact Safe.ret hB (ht.2 rfl)

/-- What runs under the lock, and closes it where it fails. -/
theorem safe_underLock {α : Type} {p : Fs α} {Q : α → Files P → Prop}
    (h : (discipline i installs False).Safe Q (fun _ => Owns i ℓ) p s) :
    (discipline i installs False).Safe Q (fun _ _ => True) (Prog.onFail (.closeLock ℓ) p) s :=
  Safe.onFail h (fun _ => stable_true) fun _ _ _ _ _ hact => ⟨act_closeLock hact, trivial⟩

variable [Crypto]

/-- A handle of an owner: what it holds is what the snapshot says under a password that opens what
the handle seals. A poisoned handle holds nothing. -/
structure Having (i : P) (h : Handle) (s : Files P) : Prop where
  owns : Owns i h.lock s
  current : ∃ password, h.ks.crypto.Under password ∧ ∀ p, h.ks.memory = some p →
    ∃ image, s.shown = some image ∧ readStore password image = .ok p

omit [DecidableEq P] in
theorem Having.stable {h : Handle} (hs : Having i h s) (hrely : Rely i s t) : Having i h t := by
  refine ⟨hs.owns.stable hrely, ?_⟩
  rw [(hrely.view _ hs.owns).shown]
  exact hs.current

theorem stable_having {h : Handle} : (discipline i installs keeps).Stable (Having i h) :=
  fun hs hrely => hs.stable hrely

/-- The image of an empty store, sealed under what `init` asks for. -/
def Founding (init : Init) (image : Bytes) : Prop :=
  ∃ kdf key, init.kdf.checked = .ok kdf ∧ deriveKey init.password init.salt kdf = .ok key ∧
    (fresh init kdf key).sealImage [] 0 = .ok image ∧ readStore init.password image = .ok emptyStore

/-- What one write on the handle `ks` makes of a snapshot: the state `old` reads as is the handle's,
the operation leads from it to another, and `new` is that one's image. -/
def Successor (ks : Keystore) (op : Op) (old new : Bytes) : Prop :=
  ∃ password p p', ks.crypto.Under password ∧ readStore password old = .ok p ∧
    ks.memory = some p ∧ p.next op = .ok p' ∧ imageOf ks.crypto p' = .ok new ∧
    readStore password new = .ok p'

/-- The installs a command may make, on a process's handle. -/
def Command.Installs (i : P) : Command → Option Handle → Files P → Files P → Prop
  | .create init, none, s, t => ∃ image, Founding init image ∧ Install i none image s t
  | .write op, some h, s, t =>
    ∃ old new, Successor h.ks op old new ∧ Install i (some old) new s t
  | _, _, _, _ => False

theorem safe_createWith (hl : Crypto.Lawful) (init : Init) :
    (discipline i ((Command.create init).Installs i none) False).Safe (fun h => Having i h)
      (fun _ _ => True) (createWith init) s := by
  refine safe_look (o := .openDirectory true) (A := fun _ => True) (fun _ _ => True) stable_true
    stable_true trivial (fun _ hdoes => ⟨hdoes, trivial⟩) (fun _ => trivial) fun _ t _ _ => ?_
  refine Safe.bind (safe_refuseOccupied (A := fun _ => True) (B := fun _ => True) stable_true
    stable_true stable_true trivial (fun _ _ => trivial) fun _ => trivial) fun _ t _ => ?_
  refine Safe.bind safe_takeLock fun ℓ t hown => safe_underLock ?_
  -- The answer under the lock: nothing is there to be replaced, and no one else puts anything there.
  refine Safe.bind (safe_refuseOccupied (B := Shows i ℓ none) stable_owns stable_shows stable_owns hown
    (fun hown hnone => ⟨hown, by rw [Files.shown, hnone, Option.map_none]⟩) fun h => h) fun _ t ht => ?_
  refine Safe.check stable_shows ht (fun kdf hkdf => ?_) fun _ _ _ h => h.owns
  refine Safe.check stable_shows ht (fun key hkey => ?_) fun _ _ _ h => h.owns
  refine Safe.check stable_shows ht (fun image himage => ?_) fun _ _ _ h => h.owns
  have hc : (fresh init kdf key).crypto.Under init.password := hkey
  have hseal : imageOf (fresh init kdf key).crypto emptyStore = .ok image := himage
  have hread : readStore init.password image = .ok emptyStore :=
    readStore_imageOf hl hc (fun hget => by cases hget) hseal
  refine safe_look (o := .syncParent) (fun _ _ => True) stable_shows stable_owns ht
    (fun _ hdoes => ⟨hdoes, trivial⟩) (fun h => h.owns) fun _ u hu _ => ?_
  refine Safe.bind (safe_commit (fun _ _ h => ⟨image, ⟨kdf, key, hkdf, hkey, himage, hread⟩, h⟩) hu)
    fun _ v hv => ?_
  refine Safe.ret stable_having ⟨hv.owns, init.password, hc, fun p hp => ⟨image, hv.shown, ?_⟩⟩
  cases hp
  exact hread

theorem safe_openWith (unlock : Unlock) :
    (discipline i installs False).Safe (fun h => Having i h) (fun _ _ => True) (openWith unlock) s := by
  refine safe_look (o := .openDirectory false) (A := fun _ => True) (fun _ _ => True) stable_true
    stable_true trivial (fun _ hdoes => ⟨hdoes, trivial⟩) (fun _ => trivial) fun _ t _ _ => ?_
  refine safe_look (o := .statSnapshot) (A := fun _ => True) (fun _ _ => True) stable_true
    stable_true trivial (fun _ hdoes => ⟨hdoes.2, trivial⟩) (fun _ => trivial) fun there t _ _ => ?_
  rcases Bool.eq_false_or_eq_true there with rfl | rfl
  · refine Safe.bind safe_takeLock fun ℓ u hown => safe_underLock ?_
    refine safe_unlinkTemp ⟨hown, rfl⟩ fun v hv => ?_
    refine Safe.bind (safe_readSnapshot hv.owns) fun image w hw => ?_
    refine Safe.check stable_shows hw (fun ks hks => ?_) fun _ _ _ h => h.owns
    obtain ⟨p, hm, hread, hc⟩ := unlockImage_ok hks
    refine Safe.ret stable_having ⟨hw.owns, unlock.password, hc, fun q hq => ⟨image, hw.shown, ?_⟩⟩
    rw [hm] at hq
    cases hq
    exact hread
  · exact Safe.fail stable_true trivial

theorem safe_write (hl : Crypto.Lawful) {h : Handle} (op : Op) (hs : Having i h s) :
    (discipline i ((Command.write op).Installs i (some h)) keeps).Safe (fun r => Having i r.1)
      (fun _ _ => True) (Shared.write h op) s := by
  obtain ⟨hown, password, hc, hcurrent⟩ := hs
  rcases hprepare : prepare h.ks op with e | ⟨p', image⟩
  · rw [Shared.write, hprepare]
    exact Safe.ret stable_having ⟨hown, password, hc, hcurrent⟩
  rw [Shared.write, hprepare]
  rcases hm : h.ks.memory with _ | p
  · obtain ⟨first, hfirst⟩ := poisoned_of_memory hm
    rw [prepare, live, hfirst] at hprepare
    cases hprepare
  rw [prepare_eq hm] at hprepare
  obtain ⟨q, hnext, hprepare⟩ := bind_eq_ok.mp hprepare
  obtain ⟨image', himage, hprepare⟩ := bind_eq_ok.mp hprepare
  cases hprepare
  obtain ⟨old, hshown, hread⟩ := hcurrent p hm
  have hread' : readStore password image = .ok p' := readStore_imageOf hl hc
    (fun hget => (Parsed.step_of_next hnext).1.touched.tags (wf_of_readStore hread) hget) himage
  have hsuccessor : Successor h.ks op old image :=
    ⟨password, p, p', hc, hread, hm, hnext, himage, hread'⟩
  refine Safe.bind (Q := fun result t => Having i ⟨h.ks.after p' (.ofExcept result), h.lock⟩ t)
    (Safe.attempt (Safe.mono (safe_commit (fun _ _ hinstall => ⟨old, image, hsuccessor, hinstall⟩)
      ⟨hown, hshown⟩) (fun _ t ht => ?_) fun e t ht => ?_)) fun result t ht => Safe.ret stable_having ht
  · refine ⟨ht.owns, password, hc, fun q hq => ⟨image, ht.shown, ?_⟩⟩
    cases hq
    exact hread'
  · exact ⟨ht, password, hc, fun q hq => by cases hq⟩

/-! ## Every process, every step -/

/-- The discipline of a process in a command, with the handle it has meanwhile. -/
abbrev Command.discipline (i : P) (c : Command) (handle : Option Handle) :
    Discipline (Files P) FileOp FileOp.Answer :=
  Shared.discipline i (c.Installs i handle) (handle.elim False fun _ => True)

/-- The handle a command ends with, if any, is in order. -/
def Holds (i : P) (handle : Option Handle) (s : Files P) : Prop :=
  ∀ h, handle = some h → Having i h s

omit [DecidableEq P] in
theorem Having.holds {h : Handle} (hs : Having i h s) : Holds i (some h) s := by
  rintro _ ⟨⟩
  exact hs

/-- Every command keeps its discipline, where the process's handle is in order. -/
theorem safe_program (hl : Crypto.Lawful) {c : Command} {handle : Option Handle}
    {p : Fs (Option Handle)} (hprogram : c.program handle = some p) (hs : Holds i handle s) :
    (c.discipline i (c.keeps handle)).Safe (Holds i) (fun _ _ => True) p s := by
  cases c with
  | create init =>
    rcases handle with _ | h <;> cases hprogram
    exact Safe.map (Safe.mono (safe_createWith hl init) (fun _ _ h => h.holds) fun _ _ h => h)
  | open' unlock =>
    rcases handle with _ | h <;> cases hprogram
    exact Safe.map (Safe.mono (safe_openWith unlock) (fun _ _ h => h.holds) fun _ _ h => h)
  | write op =>
    rcases handle with _ | h <;> cases hprogram
    exact Safe.map (Safe.mono (safe_write hl op (hs h rfl)) (fun _ _ h => h.holds) fun _ _ h => h)
  | drop =>
    rcases handle with _ | h <;> cases hprogram
    exact Safe.map (Safe.perform stable_true trivial fun _ _ _ _ hact =>
      ⟨act_closeLock hact, Safe.ret (fun _ _ => nofun) nofun⟩)

/-- A process in order: its handle has the lock, says what the snapshot does when no command runs,
and what is left of a command keeps its discipline. -/
structure Proc.Sound (i : P) (s : Files P) (proc : Proc) : Prop where
  owns : ∀ h, proc.handle = some h → Owns i h.lock s
  idle : proc.running = none → Holds i proc.handle s
  safe : ∀ c p, proc.running = some (c, p) →
    (c.discipline i proc.handle).Safe (Holds i) (fun _ _ => True) p s

theorem Proc.Sound.stable {proc : Proc} (h : proc.Sound i s) (hrely : Rely i s t) :
    proc.Sound i t where
  owns k hk := (h.owns k hk).stable hrely
  idle hidle k hk := (h.idle hidle k hk).stable hrely
  safe c p hrunning := (h.safe c p hrunning).stable hrely

/-- A process that runs nothing and has no handle. -/
theorem Proc.sound_none {proc : Proc} (hhandle : proc.handle = none) (hrunning : proc.running = none) :
    proc.Sound i s where
  owns h hh := by rw [hhandle] at hh; cases hh
  idle _ h hh := by rw [hhandle] at hh; cases hh
  safe c p hp := by rw [hrunning] at hp; cases hp

def World.Sound (w : World P) : Prop := ∀ i, (w.procs i).Sound i w.files

variable {w w' w₀ v : World P}

theorem World.Quiet.sound (h : w.Quiet) : w.Sound := fun i =>
  Proc.sound_none (by rw [h.procs i]; rfl) (by rw [h.procs i]; rfl)

theorem World.Sound.set {proc : Proc} (h : w.Sound) (hothers : ∀ j, j ≠ i → Rely j w.files s)
    (hproc : proc.Sound i s) : (w.set i s proc).Sound := by
  intro j
  by_cases hj : j = i
  · subst hj
    rw [World.set_procs_self]
    exact hproc
  · rw [World.set_procs_of_ne w hj]
    exact (h j).stable (hothers j hj)

/-- How a step installs a snapshot: in a create, where there is none, or in a write, over the
snapshot it is a successor of; and it installs a temporary file of its own process. -/
inductive Installed (i : P) (w w' : World P) : Prop where
  | created {init : Init} {p : Fs (Option Handle)} {image : Bytes}
      (hrunning : (w.procs i).running = some (.create init, p)) (hfounding : Founding init image)
      (hinstall : Install i none image w.files w'.files)
  | wrote {op : Op} {p : Fs (Option Handle)} {h : Handle} {old new : Bytes}
      (hrunning : (w.procs i).running = some (.write op, p)) (hhandle : (w.procs i).handle = some h)
      (hsuccessor : Successor h.ks op old new) (hinstall : Install i (some old) new w.files w'.files)

omit [DecidableEq P] in
theorem installed_of {c : Command} {p : Fs (Option Handle)}
    (hrunning : (w.procs i).running = some (c, p))
    (h : c.Installs i (w.procs i).handle w.files w'.files) : Installed i w w' := by
  rcases hhandle : (w.procs i).handle with _ | k <;> rw [hhandle] at h <;> cases c <;>
    first | exact h.elim | skip
  · obtain ⟨image, hfounding, hinstall⟩ := h
    exact .created hrunning hfounding hinstall
  · obtain ⟨old, new, hsuccessor, hinstall⟩ := h
    exact .wrote hrunning hhandle hsuccessor hinstall

/-- One step: every process stays in order, and the snapshot stays or is installed. -/
theorem Step.sound (hl : Crypto.Lawful) (h : Step i w w') (hs : w.Sound) :
    w'.Sound ∧ (Kept w.files w'.files ∨ Installed i w w') := by
  cases h with
  | @start c p halive hidle hprogram =>
    have hholds := (hs i).idle hidle
    refine ⟨hs.set (fun j _ => .refl j _) ⟨fun h hh => ?_, nofun, ?_⟩, .inl ⟨rfl, rfl⟩⟩
    · have hh : c.keeps (w.procs i).handle = some h := hh
      cases c <;> first | exact (hs i).owns h hh | cases hh
    · rintro _ _ ⟨⟩
      exact safe_program hl hprogram hholds
  | @act c o k x s hrunning hact =>
    obtain ⟨hguar, hsafe⟩ := ((hs i).safe _ _ hrunning).acts hact
    refine ⟨hs.set hguar.others ⟨fun h hh => ?_, nofun, ?_⟩, ?_⟩
    · have hown := (hs i).owns h hh
      have hkeeps : (w.procs i).handle.elim False fun _ => True := by
        rw [show (w.procs i).handle = some h from hh]
        trivial
      exact hguar.owns hkeeps h.lock hown
    · rintro _ _ ⟨⟩
      exact hsafe
    · exact hguar.entry.imp_right fun hinstall => installed_of hrunning hinstall
  | finish hrunning =>
    have hholds := ((hs i).safe _ _ hrunning).returns
    exact ⟨hs.set (fun j _ => .refl j _) ⟨fun h hh => (hholds h hh).owns, fun _ => hholds, nofun⟩,
      .inl ⟨rfl, rfl⟩⟩
  | refuse hrunning =>
    exact ⟨hs.set (fun j _ => .refl j _) (Proc.sound_none rfl rfl), .inl ⟨rfl, rfl⟩⟩
  | kill =>
    refine ⟨hs.set (fun j hj => ⟨fun _ h => h, fun n hn => ?_, fun _ _ => ⟨rfl, rfl, rfl, rfl⟩⟩)
      (Proc.sound_none rfl rfl), .inl ⟨rfl, rfl⟩⟩
    have hne : w.files.held n ≠ some i := by rw [hn]; exact fun h => hj (Option.some.inj h)
    exact (if_neg hne).trans hn

/-! ## Every run -/

theorem Run.sound (hl : Crypto.Lawful) (hs : w.Sound) (hrun : Run w w') : w'.Sound := by
  induction hrun with
  | refl => exact hs
  | tail _ hstep ih =>
    obtain ⟨i, hstep⟩ := hstep
    exact (hstep.sound hl ih).1

omit [DecidableEq P] in
theorem Installed.snapshot_ne_none (h : Installed i w w') : w'.files.snapshot ≠ none := by
  have hown {shown : Option Bytes} {image : Bytes} (h : Install i shown image w.files w'.files) :
      w'.files.snapshot ≠ none := by
    obtain ⟨n, -, -, hn⟩ := h.own
    rw [hn]
    nofun
  cases h with
  | created _ _ hinstall => exact hown hinstall
  | wrote _ _ _ hinstall => exact hown hinstall

/-- A snapshot that is there stays there: nothing removes its entry. -/
theorem Run.snapshot_ne_none (hl : Crypto.Lawful) (hs : w.Sound) (hrun : Run w w')
    (h : w.files.snapshot ≠ none) : w'.files.snapshot ≠ none := by
  induction hrun with
  | refl => exact h
  | tail hrun hstep ih =>
    obtain ⟨i, hstep⟩ := hstep
    rcases (hstep.sound hl (Run.sound hl hs hrun)).2 with hkept | hinstalled
    · rw [hkept.entry]
      exact ih
    · exact hinstalled.snapshot_ne_none

/-- One writer: two live handles are one process's. One lineage: a step leaves the snapshot as it is
or installs one. An install is of a temporary file that its own process made, and is the first image
of a store or a successor, by one operation, of the image it replaces; and where a create installs,
no snapshot was there at any time before. -/
theorem one_writer_one_lineage (hl : Crypto.Lawful) (hquiet : w₀.Quiet) (hrun : Run w₀ w) :
    (∀ i j, (w.procs i).handle.isSome → (w.procs j).handle.isSome → i = j) ∧
      ∀ i w', Step i w w' →
        (Kept w.files w'.files ∨ Installed i w w') ∧
          ∀ init p v, (w.procs i).running = some (.create init, p) →
            w'.files.snapshot ≠ w.files.snapshot → Run w₀ v → Run v w → v.files.snapshot = none := by
  have hs := hrun.sound hl hquiet.sound
  refine ⟨fun i j hi hj => ?_, fun i w' hstep => ⟨(hstep.sound hl hs).2, ?_⟩⟩
  · obtain ⟨h, hh⟩ := Option.isSome_iff_exists.mp hi
    obtain ⟨k, hk⟩ := Option.isSome_iff_exists.mp hj
    exact ((hs i).owns h hh).eq ((hs j).owns k hk)
  · intro init p v hrunning hchanged hv hrest
    rcases (hstep.sound hl hs).2 with hkept | hinstalled
    · exact absurd hkept.entry hchanged
    by_contra hthere
    have hnow := hrest.snapshot_ne_none hl (hv.sound hl hquiet.sound) hthere
    cases hinstalled with
    | created _ _ hinstall => exact hnow (Option.map_eq_none_iff.mp hinstall.before)
    | wrote hwriting => rw [hrunning] at hwriting; cases hwriting

end

/-! ## A new directory -/

section
attribute [local instance] Crypto.plain

/-- A directory with nothing in it, and processes that have done nothing. -/
def newWorld : World ℕ :=
  ⟨⟨none, none, none, 0, fun _ => [], fun _ => none, fun _ => none, nofun⟩, fun _ => .idle⟩

def founder : Init := ⟨[], .zero saltLen, .zero nonceSeedLen, ⟨8, 1, 1⟩⟩

/-- Two processes create a store, and each has found none. The one that takes the lock has its handle;
the other replaces nothing with any step, and is refused. -/
theorem one_writer_one_lineage_founders : ∃ w w' h p, Run newWorld w ∧ (w.procs 0).handle = some h ∧
    h.ks.memory = some emptyStore ∧ (w.procs 1).running = some (.create founder, p) ∧
    (∀ v, Step 1 w v → v.files.snapshot = w.files.snapshot) ∧
    Run w w' ∧ w'.procs 1 = .idle ∧ (w'.procs 0).handle = some h ∧
    ∀ i, (w'.procs i).handle.isSome → i = 0 := by
  -- The other looks first, and finds no snapshot.
  obtain ⟨rest, hrest⟩ := createWith_looks founder
  have hlooks : Run newWorld (newWorld.set 1 newWorld.files
      ⟨true, none, some (.create founder, takeLock >>= rest)⟩) := by
    have hstart : Step 1 newWorld (newWorld.set 1 newWorld.files
        ⟨true, none, some (.create founder, some <$> createWith founder)⟩) :=
      Step.start (c := .create founder) (p := some <$> createWith founder) rfl rfl rfl
    have hlook : (do ask (.openDirectory true) id; refuseOccupied).run (FileOp.alone 1) newWorld.files =
        (.ok (), newWorld.files) := by
      rw [run_ask (o := .openDirectory true) rfl]
      exact refuseOccupied_alone 1 rfl
    have hupto := Run.upto (w := newWorld.set 1 newWorld.files
      ⟨true, none, some (.create founder, some <$> createWith founder)⟩) (i := 1)
      (by rw [World.set_procs_self, hrest]) hlook
    rw [World.set_set, World.set_procs_self] at hupto
    exact .head ⟨1, hstart⟩ hupto
  -- Then one creates the store.
  have hsealed : ((fresh founder ⟨8, 1, 1⟩ (.zero keyLen)).sealImage [] 0).toOption.isSome := by
    decide +kernel
  obtain ⟨image, himage⟩ := Option.isSome_iff_exists.mp hsealed
  have hkdf : founder.kdf.checked = .ok ⟨8, 1, 1⟩ := rfl
  have hkey : deriveKey founder.password founder.salt ⟨8, 1, 1⟩ = .ok (.zero keyLen) := rfl
  obtain ⟨s, h, hcreates, hm⟩ := create_alone (w := newWorld.set 1 newWorld.files
    ⟨true, none, some (.create founder, takeLock >>= rest)⟩) (i := 0) rfl rfl (fun _ => rfl) hkdf
    hkey (toOption_eq_some.mp himage)
  have hrun := hlooks.trans hcreates
  have hquiet : newWorld.Quiet := ⟨fun _ => rfl, fun _ => rfl⟩
  have hsound := Run.sound Crypto.plain_lawful hquiet.sound hrun
  have hown := (hsound 0).owns h (by rw [World.set_procs_self])
  have hthere : s.snapshot ≠ none := by
    intro hnone
    have hholds := (hsound 0).idle (by rw [World.set_procs_self]) h (by rw [World.set_procs_self])
    obtain ⟨password, -, hshown⟩ := hholds.current
    obtain ⟨image, hshown, -⟩ := hshown _ hm
    cases hshown.symm.trans (congrArg (Option.map s.content) hnone)
  obtain ⟨hone, hlineage⟩ := one_writer_one_lineage Crypto.plain_lawful hquiet hrun
  have hwaits : (((newWorld.set 1 newWorld.files ⟨true, none, some (.create founder, takeLock >>= rest)⟩).set
      0 s ⟨true, some h, none⟩).procs 1).running = some (.create founder, takeLock >>= rest) := rfl
  -- And the other finds the lock taken.
  have hrefused := Run.refused hwaits
    (Prog.run_bind_of_err _ (takeLock_held hown.entry hown.held (by decide)) _)
  refine ⟨_, _, h, _, hrun, by rw [World.set_procs_self], hm, hwaits, fun v hstep => ?_, hrefused, ?_, ?_, ?_⟩
  · by_contra hchanged
    exact hthere ((hlineage 1 v hstep).2 founder _ _ hwaits hchanged hrun .refl)
  · rw [World.set_procs_self]
    rfl
  · rfl
  · intro i hi
    exact (one_writer_one_lineage Crypto.plain_lawful hquiet (hrun.trans hrefused)).1 i 0 hi rfl

end

end MochimoWallet.Keystore.Shared
