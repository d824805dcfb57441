import MochimoWallet.Keystore.Commits
import MochimoWallet.Keystore.Open
import MochimoWallet.Lib.Interleave

/-!
# Processes on one Unix directory

Any number of processes run `create`, `open`, the five writers and the handle's drop on one store
directory, and their filesystem calls interleave in any order. `Files` is the directory as they
all see it: three entries, the files they name and who holds the lock of each. `FileOp` is one
system call and `act` what it does and answers; `createWith`, `openWith`, `write` are programs
over these calls, in the source's order. `Step` is one step of one process: it starts a command,
makes its next call, returns, or is killed with its lock released.

A process has at most one handle here. One that opens the store twice is two of these: its second
lock is on a second descriptor, and the lock refuses that as it refuses another process.
-/

namespace MochimoWallet.Keystore

open Codec

/-! ## The directory -/

/-- The store's directory. A file is a number, and no number is given to two files: `next` has not
been given to any. -/
structure Files (P : Type) where
  snapshot : Option ℕ
  temp : Option ℕ
  lock : Option ℕ
  next : ℕ
  content : ℕ → Bytes
  /-- The process that created a file as its temporary file. No process reads it. -/
  made : ℕ → Option P
  /-- The process that holds the lock of a file. -/
  held : ℕ → Option P
  named : ∀ n, snapshot = some n ∨ temp = some n ∨ lock = some n → n < next

namespace Files

variable {P : Type} [DecidableEq P] (s : Files P) (i : P) (n : ℕ)

/-- The bytes a reader of the snapshot's entry finds. -/
def shown (s : Files P) : Option Bytes := s.snapshot.map s.content

def withLock : Files P where
  __ := s
  lock := some s.next
  next := s.next + 1
  named n h := by
    have := s.named n
    grind

def withTemp : Files P where
  __ := s
  temp := some s.next
  next := s.next + 1
  content := Function.update s.content s.next []
  made := Function.update s.made s.next (some i)
  named n h := by
    have := s.named n
    grind

def withoutTemp : Files P where
  __ := s
  temp := none
  named n h := s.named n (h.imp_right fun h => h.imp_left nofun)

/-- The temporary file under the snapshot's name, where there is one. -/
def replaced : Files P where
  __ := s
  snapshot := s.temp
  temp := none
  named n h := s.named n (.inr (h.imp_right fun h => h.resolve_left nofun))

def appended (byte : UInt8) : Files P :=
  { s with content := Function.update s.content n (s.content n ++ [byte]) }

def locked : Files P := { s with held := Function.update s.held n (some i) }

/-- `i` has closed its descriptor of the file `n`: a lock it held there is released. -/
def closed : Files P :=
  { s with held := fun m => if m = n ∧ s.held m = some i then none else s.held m }

/-- `i` is dead, and its locks are released. -/
def died : Files P := { s with held := fun m => if s.held m = some i then none else s.held m }

end Files

/-! ## System calls -/

/-- The calls a store makes on its directory. A write or a read of many bytes is that many calls,
so that others can act between any two of them. -/
inductive FileOp where
  | openDirectory (create : Bool)
  | statSnapshot
  | openLock
  | tryLock (file : ℕ)
  | closeLock (file : ℕ)
  | syncParent
  | unlinkTemp
  | createTemp
  | append (file : ℕ) (byte : UInt8)
  | syncFile (file : ℕ)
  | replace
  | syncDir
  | openSnapshot
  | size (file : ℕ)
  | readAt (file offset : ℕ)

namespace FileOp

/-- What a call returns. -/
abbrev Value : FileOp → Type
  | statSnapshot | tryLock _ => Bool
  | openLock | createTemp | openSnapshot | size _ => ℕ
  | readAt _ _ => Option UInt8
  | openDirectory _ | closeLock _ | syncParent | unlinkTemp | append _ _ | syncFile _ | replace
  | syncDir => Unit

/-- What a call is refused with. Opening the directory looks at its permissions too. -/
abbrev Refusal : FileOp → Type
  | openDirectory _ => Error
  | _ => ErrorKind

abbrev Answer (o : FileOp) : Type := Except o.Refusal o.Value

variable {P : Type} [DecidableEq P]

/-- What a call by `i` that returns does and returns. -/
def Does (i : P) : (o : FileOp) → Files P → o.Value → Files P → Prop
  | openDirectory _, s, _, t | syncParent, s, _, t | syncFile _, s, _, t | syncDir, s, _, t => t = s
  | statSnapshot, s, there, t => there = s.snapshot.isSome ∧ t = s
  | openLock, s, file, t =>
    s.lock = some file ∧ t = s ∨ s.lock = none ∧ file = s.next ∧ t = s.withLock
  -- The lock of a file is one process's at a time.
  | tryLock file, s, (taken : Bool), t =>
    if taken then s.held file = none ∧ t = s.locked i file else s.held file ≠ none ∧ t = s
  | closeLock file, s, _, t => t = s.closed i file
  | unlinkTemp, s, _, t => t = s.withoutTemp
  -- Created new or refused: a file that is there is not opened.
  | createTemp, s, file, t => s.temp = none ∧ file = s.next ∧ t = s.withTemp i
  | append file byte, s, _, t => t = s.appended file byte
  | replace, s, _, t => s.temp ≠ none ∧ t = s.replaced
  | openSnapshot, s, file, t => s.snapshot = some file ∧ t = s
  | size file, s, len, t => len = (s.content file).length ∧ t = s
  | readAt file offset, s, byte, t => byte = (s.content file)[offset]? ∧ t = s

/-- What a call by `i` can answer and do. One that is refused may still have done its work. -/
def act (i : P) (o : FileOp) (s : Files P) (x : o.Answer) (t : Files P) : Prop :=
  match x with
  | .ok v => o.Does i s v t
  | .error _ => t = s ∨ ∃ v, o.Does i s v t

/-- What a call by `i` does and answers where the system refuses none that can be done. -/
def answer (i : P) : (o : FileOp) → Files P → o.Answer × Files P
  | openDirectory _, s | syncParent, s | syncFile _, s | syncDir, s => (.ok (), s)
  | statSnapshot, s => (.ok s.snapshot.isSome, s)
  | openLock, s =>
    match s.lock with
    | some file => (.ok file, s)
    | none => (.ok s.next, s.withLock)
  | tryLock file, s => if s.held file = none then (.ok true, s.locked i file) else (.ok false, s)
  | closeLock file, s => (.ok (), s.closed i file)
  | unlinkTemp, s => (.ok (), s.withoutTemp)
  | createTemp, s => if s.temp = none then (.ok s.next, s.withTemp i) else (.error (.other 17), s)
  | append file byte, s => (.ok (), s.appended file byte)
  | replace, s => if s.temp = none then (.error .notFound, s) else (.ok (), s.replaced)
  | openSnapshot, s =>
    match s.snapshot with
    | some file => (.ok file, s)
    | none => (.error .notFound, s)
  | size file, s => (.ok (s.content file).length, s)
  | readAt file offset, s => (.ok (s.content file)[offset]?, s)

theorem act_answer (i : P) (o : FileOp) (s : Files P) : o.act i s (o.answer i s).1 (o.answer i s).2 := by
  cases o with
  | openLock =>
    rcases h : s.lock with _ | file
    · simp only [answer, h]
      exact .inr ⟨h, rfl, rfl⟩
    · simp only [answer, h]
      exact .inl ⟨h, rfl⟩
  | tryLock file =>
    by_cases h : s.held file = none
    · simp only [answer, if_pos h]
      exact ⟨h, rfl⟩
    · simp only [answer, if_neg h]
      exact ⟨h, rfl⟩
  | createTemp =>
    by_cases h : s.temp = none
    · simp only [answer, if_pos h]
      exact ⟨h, rfl, rfl⟩
    · simp only [answer, if_neg h]
      exact .inl rfl
  | replace =>
    by_cases h : s.temp = none
    · simp only [answer, if_pos h]
      exact .inl rfl
    · simp only [answer, if_neg h]
      exact ⟨h, rfl⟩
  | openSnapshot =>
    rcases h : s.snapshot with _ | file
    · simp only [answer, h]
      exact .inl rfl
    · simp only [answer, h]
      exact ⟨h, rfl⟩
  | openDirectory _ | syncParent | syncFile _ | syncDir | closeLock _ | unlinkTemp | append _ _ => rfl
  | statSnapshot | size _ | readAt _ _ => exact ⟨rfl, rfl⟩

/-- `i` is the only process, and is not killed. -/
def alone (i : P) (o : FileOp) (s : Files P) : Option o.Answer × Files P :=
  (some (o.answer i s).1, (o.answer i s).2)

end FileOp

/-! ## The keystore's programs -/

namespace Shared

abbrev Fs (α : Type) : Type := Prog FileOp FileOp.Answer Error α

/-- Make a call, and name its refusal. -/
def ask (o : FileOp) (refusal : o.Refusal → Error) : Fs o.Value := do
  let answer ← Prog.perform o
  Prog.check (answer.mapError refusal)

/-- The lock file is opened, or created and never truncated; every refusal closes it again. -/
def takeLock : Fs ℕ := do
  let file ← ask .openLock (.io "open lock")
  Prog.onFail (.closeLock file) do
    let taken : Bool ← ask (.tryLock file) (.io "flock")
    if taken then pure file else .fail .locked

def writeAll (file : ℕ) : Bytes → Fs Unit
  | [] => pure ()
  | byte :: image => do
    let _ ← ask (.append file byte) (.io "write_temp write")
    writeAll file image

/-- A leftover temporary file is unlinked, and the temporary file created new. -/
def writeTemp (image : Bytes) : Fs ℕ := do
  let _ ← ask .unlinkTemp (.io "write_temp unlink stale temp")
  let file ← ask .createTemp (.io "write_temp open")
  writeAll file image
  pure file

def commit (image : Bytes) : Fs Unit := do
  let file ← writeTemp image
  let _ ← ask (.syncFile file) (.io "fsync_file")
  let _ ← ask .replace (.io "rename")
  ask .syncDir (.io "fsync_dir")

def refuseOccupied : Fs Unit := do
  let occupied : Bool ← ask .statSnapshot (.io "stat snapshot")
  if occupied then .fail (.exists "snapshot") else pure ()

/-! ### What they come to with no other process -/

section
variable {P : Type} [DecidableEq P]

theorem run_ask {α : Type} {i : P} {o : FileOp} {v : o.Value} {s t : Files P}
    (h : o.answer i s = (.ok v, t)) (refusal : o.Refusal → Error) (f : o.Value → Fs α) :
    (ask o refusal >>= f).run (FileOp.alone i) s = (f v).run (FileOp.alone i) t := by
  show (Prog.op o fun x => Prog.check (x.mapError refusal) >>= f).run (FileOp.alone i) s = _
  rw [Prog.run, FileOp.alone, h]
  rfl

theorem writeAll_alone (i : P) (n : ℕ) (image : Bytes) (s : Files P) :
    ∃ t, (writeAll n image).run (FileOp.alone i) s = (.ok (), t) ∧ t.temp = s.temp := by
  induction image generalizing s with
  | nil => exact ⟨s, rfl, rfl⟩
  | cons byte image ih =>
    obtain ⟨t, hrun, htemp⟩ := ih (s.appended n byte)
    refine ⟨t, ?_, htemp⟩
    rw [writeAll, run_ask (o := .append n byte) rfl]
    exact hrun

theorem commit_alone (i : P) (image : Bytes) (s : Files P) :
    ∃ t, (commit image).run (FileOp.alone i) s = (.ok (), t) := by
  obtain ⟨t, hrun, htemp⟩ := writeAll_alone i s.withoutTemp.next image (s.withoutTemp.withTemp i)
  have hwrite : (writeTemp image).run (FileOp.alone i) s = (.ok s.next, t) := by
    rw [writeTemp, run_ask (o := .unlinkTemp) rfl, run_ask (o := .createTemp) rfl,
      Prog.run_bind_of_ok _ hrun]
    rfl
  have hreplace : FileOp.replace.answer i t = (.ok (), t.replaced) := by
    rw [FileOp.answer, if_neg]
    rw [htemp]
    nofun
  refine ⟨t.replaced, ?_⟩
  rw [commit, Prog.run_bind_of_ok _ hwrite, run_ask (o := .syncFile s.next) rfl,
    run_ask (o := .replace) hreplace]
  rfl

theorem takeLock_alone (i : P) {s : Files P} (hfree : ∀ n, s.held n = none) :
    ∃ n t, takeLock.run (FileOp.alone i) s = (.ok n, t) ∧ t.snapshot = s.snapshot := by
  obtain ⟨n, t, hopen, hsnapshot, hheld⟩ : ∃ n t, FileOp.openLock.answer i s = (.ok n, t) ∧
      t.snapshot = s.snapshot ∧ t.held = s.held := by
    rcases h : s.lock with _ | n
    · exact ⟨s.next, s.withLock, by rw [FileOp.answer, h], rfl, rfl⟩
    · exact ⟨n, s, by rw [FileOp.answer, h], rfl, rfl⟩
  have htry : (FileOp.tryLock n).answer i t = (.ok true, t.locked i n) := by
    rw [FileOp.answer, if_pos]
    rw [hheld, hfree n]
  refine ⟨n, t.locked i n, ?_, hsnapshot⟩
  rw [takeLock, run_ask (o := .openLock) hopen]
  refine Prog.run_onFail _ ?_
  rw [run_ask (o := .tryLock n) htry]
  rfl

/-- The lock is another process's. -/
theorem takeLock_held {i j : P} {n : ℕ} {s : Files P} (hentry : s.lock = some n)
    (hheld : s.held n = some j) (hj : j ≠ i) : takeLock.run (FileOp.alone i) s = (.err .locked, s) := by
  have hopen : FileOp.openLock.answer i s = (.ok n, s) := by rw [FileOp.answer, hentry]
  have htry : (FileOp.tryLock n).answer i s = (.ok false, s) := by
    rw [FileOp.answer, if_neg]
    rw [hheld]
    nofun
  have hclosed : s.closed i n = s := by
    have hkept (m : ℕ) : (s.closed i n).held m = s.held m := by
      refine if_neg fun h => hj ?_
      obtain ⟨rfl, hm⟩ := h
      exact Option.some.inj (hheld.symm.trans hm)
    show { s with held := (s.closed i n).held } = s
    rw [show (s.closed i n).held = s.held from funext hkept]
  have hclose : FileOp.alone i (.closeLock n) s = (some (.ok ()), s) := by
    show (some (Except.ok ()), s.closed i n) = _
    rw [hclosed]
  rw [takeLock, run_ask (o := .openLock) hopen]
  refine Prog.run_onFail_err _ ?_ hclose
  rw [run_ask (o := .tryLock n) htry]
  rfl

theorem refuseOccupied_alone (i : P) {s : Files P} (hnone : s.snapshot = none) :
    refuseOccupied.run (FileOp.alone i) s = (.ok (), s) := by
  have hstat : FileOp.statSnapshot.answer i s = (.ok false, s) := by rw [FileOp.answer, hnone]; rfl
  rw [refuseOccupied, run_ask (o := .statSnapshot) hstat]
  rfl

end

/-! ### The store's commands -/

variable [Crypto]

/-- A handle, with the lock file its process holds for it. -/
structure Handle where
  ks : Keystore
  lock : ℕ

def createWith (init : Init) : Fs Handle := do
  ask (.openDirectory true) id
  refuseOccupied
  let lock ← takeLock
  Prog.onFail (.closeLock lock) do
    -- Asked again under the lock, where the answer decides.
    refuseOccupied
    let kdf ← Prog.check init.kdf.checked
    let key ← Prog.check (deriveKey init.password init.salt kdf)
    let ks := fresh init kdf key
    let image ← Prog.check (ks.sealImage [] 0)
    let _ ← ask .syncParent (.io "fsync_parent")
    commit image
    pure ⟨{ ks with onDiskVersion := version }, lock⟩

def readExact (file : ℕ) : (offset len : ℕ) → Fs Bytes
  | _, 0 => pure []
  | offset, len + 1 => do
    let byte : Option UInt8 ← ask (.readAt file offset) (.io "read snapshot")
    match byte with
    | none => .fail (.io "read snapshot" .unexpectedEof)
    | some byte => do
      let rest ← readExact file (offset + 1) len
      pure (byte :: rest)

/-- The snapshot, through one descriptor; refused when it is too long, or longer than it was. -/
def readSnapshot : Fs Bytes := do
  let file ← ask .openSnapshot fun (kind : ErrorKind) =>
    if kind = .notFound then .missing else .io "open snapshot" kind
  let len : ℕ ← ask (.size file) (.io "stat snapshot")
  if len > maxImageLen then .fail (.range "keystore image length" minImageLen maxImageLen len)
  else
  let image ← readExact file 0 len
  let extra : Option UInt8 ← ask (.readAt file len) (.io "read snapshot")
  if extra.isSome then .fail (.corrupt "snapshot grew while being read" len)
  else pure image

def openWith (unlock : Unlock) : Fs Handle := do
  ask (.openDirectory false) id
  let there : Bool ← ask .statSnapshot (.io "stat snapshot")
  if !there then .fail .missing
  else
  let lock ← takeLock
  Prog.onFail (.closeLock lock) do
    let _ ← ask .unlinkTemp (.io "remove stale temp")
    let image ← readSnapshot
    let ks ← Prog.check (unlockImage unlock image)
    pure ⟨ks, lock⟩

/-- What a write commits: the state it leads to, and that state's image. -/
def prepare (ks : Keystore) (op : Op) : Except Error (Parsed × Bytes) := do
  let (generation, slots) ← ks.live
  let p ← Parsed.next ⟨generation, slots, ks.master⟩ op
  let image ← imageOf ks.crypto p
  .ok (p, image)

/-- A write on a handle: the handle it leaves, and its reply. -/
def write (h : Handle) (op : Op) : Fs (Handle × Except Error (Option AdvanceReceipt)) :=
  match prepare h.ks op with
  | .error e => pure (h, .error e)
  | .ok (p, image) => do
    let result ← Prog.attempt (commit image)
    pure ({ h with ks := h.ks.after p (.ofExcept result) }, result.map fun _ => op.receipt p)

/-- A handle's drop closes its lock file, and nothing else of it is on the disk. -/
def drop (h : Handle) : Fs Unit := do
  let _ ← Prog.perform (.closeLock h.lock)
  pure ()

end Shared

/-! ## Processes -/

namespace Shared

variable [Crypto]

inductive Command where
  | create (init : Init)
  | open' (unlock : Unlock)
  | write (op : Op)
  | drop

/-- What a command runs, where a process with this handle can be asked for it; it ends with the
handle the process has then. -/
def Command.program : Command → Option Handle → Option (Fs (Option Handle))
  | .create init, none => some (some <$> createWith init)
  | .open' unlock, none => some (some <$> openWith unlock)
  | .write op, some h => some ((fun r => some r.1) <$> Shared.write h op)
  | .drop, some h => some ((fun _ => none) <$> Shared.drop h)
  | _, _ => none

/-- The handle a process has while it runs a command. A drop has taken it. -/
def Command.keeps : Command → Option Handle → Option Handle
  | .drop, _ => none
  | _, handle => handle

structure Proc where
  alive : Bool
  handle : Option Handle
  /-- The command it is in, and what is left of it. -/
  running : Option (Command × Fs (Option Handle))

/-- A process that has done nothing yet. -/
def Proc.idle : Proc := ⟨true, none, none⟩

variable {P : Type} [DecidableEq P]

structure World (P : Type) [Crypto] where
  files : Files P
  procs : P → Proc

def World.set (w : World P) (i : P) (files : Files P) (proc : Proc) : World P :=
  ⟨files, Function.update w.procs i proc⟩

theorem World.set_set (w : World P) (i : P) (s t : Files P) (proc proc' : Proc) :
    (w.set i s proc).set i t proc' = w.set i t proc' := by
  rw [World.set, World.set, World.set, Function.update_idem]

@[simp] theorem World.set_procs_self (w : World P) (i : P) (s : Files P) (proc : Proc) :
    (w.set i s proc).procs i = proc := Function.update_self ..

theorem World.set_procs_of_ne (w : World P) {i j : P} (h : j ≠ i) (s : Files P) (proc : Proc) :
    (w.set i s proc).procs j = w.procs j := Function.update_of_ne h ..

/-- One step of the process `i`. -/
inductive Step (i : P) (w : World P) : World P → Prop where
  | start {c : Command} {p : Fs (Option Handle)} (halive : (w.procs i).alive = true)
      (hidle : (w.procs i).running = none) (hprogram : c.program (w.procs i).handle = some p) :
      Step i w (w.set i w.files { w.procs i with
        handle := c.keeps (w.procs i).handle
        running := some (c, p) })
  | act {c : Command} {o : FileOp} {k : o.Answer → Fs (Option Handle)} {x : o.Answer} {s : Files P}
      (hrunning : (w.procs i).running = some (c, .op o k)) (hact : o.act i w.files x s) :
      Step i w (w.set i s { w.procs i with running := some (c, k x) })
  | finish {c : Command} {handle : Option Handle}
      (hrunning : (w.procs i).running = some (c, .ret handle)) :
      Step i w (w.set i w.files { w.procs i with handle := handle, running := none })
  | refuse {c : Command} {e : Error} (hrunning : (w.procs i).running = some (c, .fail e)) :
      Step i w (w.set i w.files { w.procs i with handle := none, running := none })
  | kill : Step i w (w.set i (w.files.died i) ⟨false, none, none⟩)

/-- Any steps of any processes, in any order. -/
def Run : World P → World P → Prop := Relation.ReflTransGen fun w w' => ∃ i, Step i w w'

/-- Nothing has started: no process has a handle, runs a command or holds a lock. What the
directory has in it can be anything. -/
structure World.Quiet (w : World P) : Prop where
  procs : ∀ i, w.procs i = .idle
  held : ∀ n, w.files.held n = none

/-! ## A handle alone -/

/-- The commit's calls, over a system that answers them. -/
abbrev layoutOf {σ : Type} (answer : (o : FileOp) → σ → Option o.Answer × σ) : Layout σ :=
  ⟨fun image => (commit image).run answer⟩

/-- A write's end, as the handle it leaves and the reply it gives. -/
def Handle.replied (h : Handle) (ks : Keystore) : Reply Error (Option AdvanceReceipt) →
    Reply Error (Handle × Except Error (Option AdvanceReceipt))
  | .ok receipt => .ok (⟨ks, h.lock⟩, .ok receipt)
  | .err e => .ok (⟨ks, h.lock⟩, .error e)
  | .killed => .killed

theorem prepare_eq {ks : Keystore} {p : Parsed} (hm : ks.memory = some p) (op : Op) :
    prepare ks op = (do
      let p' ← p.next op
      let image ← imageOf ks.crypto p'
      .ok (p', image)) := by
  rw [prepare, live_of_memory hm, ok_bind, (memory_eq_some.mp hm).2]

/-- A write with nothing between its calls is the handle's writer, over the medium whose commit
steps these calls are. -/
theorem write_alone {σ : Type} (answer : (o : FileOp) → σ → Option o.Answer × σ) (h : Handle)
    (op : Op) (s t : σ) (ks : Keystore) (r : Reply Error (Option AdvanceReceipt))
    (hcall : @Op.call _ σ (layoutOf answer) op ⟨h.ks, s⟩ = (r, ⟨ks, t⟩)) :
    (Shared.write h op).run answer s = (h.replied ks r, t) := by
  let := layoutOf answer
  rcases hm : h.ks.memory with _ | p
  · obtain ⟨first, hfirst⟩ := poisoned_of_memory hm
    rw [call_poisoned hfirst] at hcall
    cases hcall
    simp only [Shared.write, prepare, live, hfirst, error_bind]
    rfl
  rw [call_eq hm] at hcall
  rw [Shared.write, prepare_eq hm]
  rcases hnext : p.next op with e | p'
  · rw [hnext] at hcall
    cases hcall
    rfl
  rw [hnext] at hcall
  simp only [settle, install, Call.get_bind] at hcall
  rcases himage : imageOf h.ks.crypto p' with e | image
  · rw [himage] at hcall
    cases hcall
    rw [ok_bind, himage, error_bind]
    rfl
  rw [himage, Call.check_ok, Call.pure_bind, commit_bind] at hcall
  rw [ok_bind, himage, ok_bind, Prog.run_bind, Prog.run_attempt, Call.bind_apply, Call.attempt]
  rcases hrun : (commit image).run answer s with ⟨_ | e | _, m⟩ <;>
    rw [show Layout.steps image s = _ from hrun] at hcall <;> cases hcall <;> rfl

/-! ## A process alone -/

/-- A process alone gets through the first part of its command. -/
theorem Run.upto {α : Type} {w : World P} {i : P} {c : Command} {p : Fs α}
    {f : α → Fs (Option Handle)} {s : Files P} {a : α}
    (hrunning : (w.procs i).running = some (c, p >>= f))
    (hrun : p.run (FileOp.alone i) w.files = (.ok a, s)) :
    Run w (w.set i s { w.procs i with running := some (c, f a) }) := by
  induction p generalizing w with
  | ret a' =>
    cases hrun
    have hsame : w.set i w.files { w.procs i with running := some (c, f a) } = w := by
      rw [World.set, ← show (w.procs i).running = some (c, f a) from hrunning, Function.update_eq_self]
    rw [hsame]
    exact .refl
  | fail e => cases hrun
  | op o k ih =>
    have hstep := Step.act hrunning (o.act_answer i w.files)
    have hrest := ih (o.answer i w.files).1 (w := w.set i (o.answer i w.files).2
      { w.procs i with running := some (c, k (o.answer i w.files).1 >>= f) })
      (by rw [World.set_procs_self]) hrun
    rw [World.set_set, World.set_procs_self] at hrest
    exact .head ⟨i, hstep⟩ hrest

/-- A process alone runs its command to the end. -/
theorem Run.alone {w : World P} {i : P} {c : Command} {p : Fs (Option Handle)} {s : Files P}
    {handle : Option Handle} (hrunning : (w.procs i).running = some (c, p))
    (hrun : p.run (FileOp.alone i) w.files = (.ok handle, s)) :
    Run w (w.set i s { w.procs i with handle := handle, running := none }) := by
  have hupto := Run.upto (f := pure) (hrunning.trans (by rw [Prog.bind_pure])) hrun
  have hfinish := Step.finish (i := i) (w := w.set i s { w.procs i with running := some (c, pure handle) })
    (by rw [World.set_procs_self]; rfl)
  rw [World.set_set, World.set_procs_self] at hfinish
  exact hupto.tail ⟨i, hfinish⟩

/-- A process alone whose command is refused has no handle. -/
theorem Run.refused {w : World P} {i : P} {c : Command} {p : Fs (Option Handle)} {s : Files P}
    {e : Error} (hrunning : (w.procs i).running = some (c, p))
    (hrun : p.run (FileOp.alone i) w.files = (.err e, s)) :
    Run w (w.set i s { w.procs i with handle := none, running := none }) := by
  induction p generalizing w with
  | ret a => cases hrun
  | fail e' =>
    cases hrun
    exact .single ⟨i, .refuse hrunning⟩
  | op o k ih =>
    have hstep := Step.act hrunning (o.act_answer i w.files)
    have hrest := ih (o.answer i w.files).1 (w := w.set i (o.answer i w.files).2
      { w.procs i with running := some (c, k (o.answer i w.files).1) })
      (by rw [World.set_procs_self]) hrun
    rw [World.set_set, World.set_procs_self] at hrest
    exact .head ⟨i, hstep⟩ hrest

/-- A create looks for a snapshot before it takes the lock. -/
theorem createWith_looks (init : Init) : ∃ rest : ℕ → Fs (Option Handle),
    some <$> createWith init =
      (do ask (.openDirectory true) id; refuseOccupied) >>= fun _ => takeLock >>= rest := by
  show ∃ rest : ℕ → Fs (Option Handle), createWith init >>= (fun h => pure (some h)) = _ >>= fun _ =>
    takeLock >>= rest
  simp only [createWith, Prog.bind_assoc]
  exact ⟨_, rfl⟩

/-- A create alone, where no snapshot is, ends with a handle of the empty store. -/
theorem create_alone {w : World P} {i : P} {init : Init} {kdf : Kdf} {key : Block keyLen}
    {image : Bytes} (hidle : w.procs i = .idle) (hnone : w.files.snapshot = none)
    (hfree : ∀ n, w.files.held n = none) (hkdf : init.kdf.checked = .ok kdf)
    (hkey : deriveKey init.password init.salt kdf = .ok key)
    (himage : (fresh init kdf key).sealImage [] 0 = .ok image) :
    ∃ s h, Run w (w.set i s ⟨true, some h, none⟩) ∧ h.ks.memory = some emptyStore := by
  obtain ⟨n, t, hlock, ht⟩ := takeLock_alone i hfree
  obtain ⟨u, hcommit⟩ := commit_alone i image t
  let h : Handle := ⟨{ fresh init kdf key with onDiskVersion := version }, n⟩
  have hcreate : (createWith init).run (FileOp.alone i) w.files = (.ok h, u) := by
    rw [createWith, run_ask (o := .openDirectory true) rfl,
      Prog.run_bind_of_ok _ (refuseOccupied_alone i hnone), Prog.run_bind_of_ok _ hlock]
    refine Prog.run_onFail _ ?_
    rw [Prog.run_bind_of_ok _ (refuseOccupied_alone i (ht.trans hnone)), Prog.check_bind_of_ok hkdf,
      Prog.check_bind_of_ok hkey, Prog.check_bind_of_ok himage, run_ask (o := .syncParent) rfl,
      Prog.run_bind_of_ok _ hcommit]
    rfl
  have hprogram : (Command.create init).program (w.procs i).handle = some (some <$> createWith init) := by
    rw [hidle]
    rfl
  have hstart := Step.start (by rw [hidle]; rfl) (by rw [hidle]; rfl) hprogram
  have hrun : (some <$> createWith init).run (FileOp.alone i) w.files = (.ok (some h), u) :=
    Prog.run_bind_of_ok _ hcreate _
  rw [hidle] at hstart
  have hend := Run.alone (w := w.set i w.files ⟨true, none, some (.create init, some <$> createWith init)⟩)
    (i := i) (by rw [World.set_procs_self]) hrun
  rw [World.set_set, World.set_procs_self] at hend
  exact ⟨u, h, .head ⟨i, hstart⟩ hend, rfl⟩

end Shared

end MochimoWallet.Keystore
