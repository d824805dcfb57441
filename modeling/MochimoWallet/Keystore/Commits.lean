import MochimoWallet.Keystore.Writes

/-!
# The images a handle commits

Nothing stands between sealing an image and giving it to the medium, so a medium that
records what it is given has every image a handle sealed, with how the commit ended.
`Trace` says what such a record can be: each image is of the state one operation leads
to from the state the handle held, and the handle goes on from how the commit ended.
`trace_of_calls` is the connection to the calls; what follows about a handle's images is
by induction on its trace.
-/

namespace MochimoWallet.Keystore

open Codec

/-- An image given to a medium, and how the commit's steps ended. -/
structure Commit where
  image : Bytes
  reply : Reply Error Unit

/-- A medium with a record of the images it was given. -/
structure Recorder (D : Type) where
  medium : D
  commits : List Commit

section
variable {D : Type} [Layout D]

instance : Layout (Recorder D) where
  steps image s :=
    let (reply, m) := Layout.steps image s.medium
    (reply, ⟨m, s.commits ++ [⟨image, reply⟩]⟩)

theorem recorder_steps (image : Bytes) (s : Recorder D) :
    Layout.steps image s = ((Layout.steps image s.medium).1,
      ⟨(Layout.steps image s.medium).2, s.commits ++ [⟨image, (Layout.steps image s.medium).1⟩]⟩) :=
  rfl

end

variable [Crypto] {D : Type}

/-- The handle after a commit of `p` that ended with `reply`. -/
def after (ks : Keystore) (p : Parsed) : Reply Error Unit → Keystore
  | .ok _ => { ks.holding p with onDiskVersion := version }
  | .err e => { ks with state := .poisoned e }
  | .killed => ks

@[simp] theorem after_crypto (ks : Keystore) (p : Parsed) (reply : Reply Error Unit) :
    (ks.after p reply).crypto = ks.crypto := by
  cases reply <;> rfl

@[simp] theorem after_openedVersion (ks : Keystore) (p : Parsed) (reply : Reply Error Unit) :
    (ks.after p reply).openedVersion = ks.openedVersion := by
  cases reply <;> rfl

/-! ## One call -/

/-- What one call adds to the record: nothing, refused with the handle as it was, or the image of the
state its operation leads to. -/
inductive CallCommits (s t : Opened (Recorder D)) (op : Op) :
    Reply Error (Option AdvanceReceipt) → Prop where
  | nothing {e : Error} (ht : t = s) : CallCommits s t op (.err e)
  | image {r : Reply Error (Option AdvanceReceipt)} {p p' : Parsed} {c : Commit}
      (hm : s.ks.memory = some p) (hnext : p.next op = .ok p')
      (himage : imageOf s.ks.crypto p' = .ok c.image)
      (hcommits : t.medium.commits = s.medium.commits ++ [c])
      (hks : t.ks = s.ks.after p' c.reply) (hkilled : c.reply = .killed ↔ r = .killed) :
      CallCommits s t op r

theorem call_commits [Layout D] {s t : Opened (Recorder D)} {op : Op}
    {r : Reply Error (Option AdvanceReceipt)} (h : op.call s = (r, t)) : CallCommits s t op r := by
  rcases hm : s.ks.memory with _ | p
  · obtain ⟨first, hstate⟩ := poisoned_of_memory hm
    rw [call_poisoned hstate] at h
    cases h
    exact .nothing rfl
  have hrecord {image : Bytes} {reply : Reply Error Unit}
      (hsteps : Layout.steps image s.medium = (reply, t.medium)) :
      t.medium.commits = s.medium.commits ++ [⟨image, reply⟩] := by
    rw [recorder_steps] at hsteps
    obtain ⟨rfl, hmedium⟩ := Prod.mk.inj hsteps
    rw [← hmedium]
  cases call_end hm h with
  | refused ht => exact .nothing ht
  | done hnext himage hsteps hks => exact .image hm hnext himage (hrecord hsteps) hks (by simp)
  | failed hnext himage hsteps hks => exact .image hm hnext himage (hrecord hsteps) hks (by simp)
  | killed hnext himage hsteps hks => exact .image hm hnext himage (hrecord hsteps) hks (by simp)

/-! ## Many calls -/

/-- A handle's calls one after another, until its process ends. -/
def Op.calls [Layout D] : List Op → Opened D → Opened D
  | [], s => s
  | op :: ops, s =>
    match op.call s with
    | (.killed, t) => t
    | (_, t) => calls ops t

/-- What a handle's calls can commit, and the handle they leave. -/
inductive Trace : Keystore → List Op → List Commit → Keystore → Prop where
  | done {ks : Keystore} : Trace ks [] [] ks
  | nothing {ks ks' : Keystore} {op : Op} {ops : List Op} {cs : List Commit}
      (h : Trace ks ops cs ks') : Trace ks (op :: ops) cs ks'
  | image {ks ks' : Keystore} {op : Op} {ops : List Op} {cs : List Commit} {p p' : Parsed}
      {c : Commit} (hm : ks.memory = some p) (hnext : p.next op = .ok p')
      (himage : imageOf ks.crypto p' = .ok c.image) (halive : c.reply ≠ .killed)
      (h : Trace (ks.after p' c.reply) ops cs ks') : Trace ks (op :: ops) (c :: cs) ks'
  | killed {ks : Keystore} {op : Op} {ops : List Op} {p p' : Parsed} {c : Commit}
      (hm : ks.memory = some p) (hnext : p.next op = .ok p')
      (himage : imageOf ks.crypto p' = .ok c.image) (hkilled : c.reply = .killed) :
      Trace ks (op :: ops) [c] ks

/-- The record of a handle's calls is a trace of it. -/
theorem trace_of_calls [Layout D] (ops : List Op) (s : Opened (Recorder D)) :
    ∃ cs, (Op.calls ops s).medium.commits = s.medium.commits ++ cs ∧
      Trace s.ks ops cs (Op.calls ops s).ks := by
  induction ops generalizing s with
  | nil => exact ⟨[], (List.append_nil _).symm, .done⟩
  | cons op ops ih =>
    rcases hcall : op.call s with ⟨r, t⟩
    obtain ⟨cs, hcommits', htrace⟩ := ih t
    have halive (hr : r ≠ .killed) : Op.calls (op :: ops) s = Op.calls ops t := by
      rw [Op.calls, hcall]
      cases r with
      | ok _ | err _ => rfl
      | killed => exact absurd rfl hr
    cases call_commits hcall with
    | nothing ht =>
      rw [halive (by simp)]
      subst ht
      exact ⟨cs, hcommits', .nothing htrace⟩
    | @image _ p p' c hm hnext himage hcommits hks hkilled =>
      by_cases hr : r = .killed
      · have hlast : Op.calls (op :: ops) s = t := by rw [Op.calls, hcall, hr]
        rw [hlast, hks, hkilled.mpr hr]
        exact ⟨[c], hcommits, .killed hm hnext himage (hkilled.mpr hr)⟩
      · rw [halive hr]
        refine ⟨c :: cs, ?_, .image hm hnext himage (mt hkilled.mp hr) (hks ▸ htrace)⟩
        rw [hcommits', hcommits, List.append_assoc, List.singleton_append]

/-- Everything a handle commits in these calls, over any medium. -/
def commitsOf [Layout D] (ks : Keystore) (m : D) (ops : List Op) : List Commit :=
  (Op.calls ops (⟨ks, ⟨m, []⟩⟩ : Opened (Recorder D))).medium.commits

theorem trace_commitsOf [Layout D] (ks : Keystore) (m : D) (ops : List Op) :
    Trace ks ops (commitsOf ks m ops)
      (Op.calls ops (⟨ks, ⟨m, []⟩⟩ : Opened (Recorder D))).ks := by
  obtain ⟨cs, hcommits, htrace⟩ := trace_of_calls ops (⟨ks, ⟨m, []⟩⟩ : Opened (Recorder D))
  rw [commitsOf, hcommits]
  exact htrace

/-! ## The record changes nothing -/

/-- What is under the record. -/
def Opened.unrecorded (s : Opened (Recorder D)) : Opened D := ⟨s.ks, s.medium.medium⟩

theorem call_unrecorded [Layout D] (op : Op) (s : Opened (Recorder D)) :
    op.call s.unrecorded = ((op.call s).1, (op.call s).2.unrecorded) := by
  rcases hm : s.ks.memory with _ | p
  · obtain ⟨first, hstate⟩ := poisoned_of_memory hm
    rw [call_poisoned hstate, call_poisoned (s := s.unrecorded) hstate]
  rw [call_eq hm, call_eq (s := s.unrecorded) hm]
  rcases p.next op with e | p'
  · rfl
  have hks : s.unrecorded.ks = s.ks := rfl
  have hmedium : s.unrecorded.medium = s.medium.medium := rfl
  simp only [settle, install, Call.get_bind, hks]
  rcases imageOf s.ks.crypto p' with e | image
  · rfl
  simp only [Call.check_ok, Call.pure_bind, commit_bind, recorder_steps, hmedium]
  rcases Layout.steps image s.medium.medium with ⟨_ | e | _, m⟩ <;> rfl

/-- The calls on a recording medium are the calls on the medium under it. -/
theorem calls_unrecorded [Layout D] (ops : List Op) (s : Opened (Recorder D)) :
    Op.calls ops s.unrecorded = (Op.calls ops s).unrecorded := by
  induction ops generalizing s with
  | nil => rfl
  | cons op ops ih =>
    rw [Op.calls, Op.calls, call_unrecorded]
    rcases op.call s with ⟨_ | _ | _, t⟩
    · exact ih t
    · exact ih t
    · rfl

end MochimoWallet.Keystore
