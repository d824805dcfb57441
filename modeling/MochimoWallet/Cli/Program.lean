import MochimoWallet.Cli.Args
import MochimoWallet.Cli.Create
import MochimoWallet.Cli.Decide

/-!
# The program

A process reads its arguments and then the node's address. After that it makes a store, posts an
artifact, reads the node, or asks for the password, opens the store and runs the command on it. It
ends with a page and a code, unless it dies.
-/

namespace MochimoWallet.Cli

open Codec Keystore Session Mesh
open Command (Decided)

/-! ## The node's base address -/

/-- `host[:port]` and nothing else. -/
def checkAuthority (rest : Text) : Except Error Unit :=
  if rest = [] ∨ rest.any (· ∈ ['/', '?', '#', '@', ' ']) then .error (.transport "base url" .protocol)
  else .ok ()

/-- The address requests are posted under, where `https` can be spoken. -/
def baseUrl (url : Text) : Except Error Text :=
  let base := (url.stripSuffix ['/']).getD url
  match base.stripPrefix "https://".toList, base.stripPrefix "http://".toList with
  | some rest, _ | none, some rest => do
    checkAuthority rest
    .ok base
  | none, none => .error (.transport "base url" .protocol)

/-! ## A process -/

/-- The commands whose whole input is a node. -/
def Command.opensNoStore : Command → Bool
  | .submit _ | .lookupTransaction _ | .recentTransactions .. | .block _ | .blocks _ | .mempool _ => true
  | _ => false

/-- What a process ends with. -/
inductive Ending where
  | usage (refusal : Usage)
  | help
  | report (report : Report)
  | decided (decided : Decided)

namespace Ending

/-- The code it exits with. -/
def code : Ending → Code
  | usage _ => .usage
  | help => .ok
  | .report r => r.code
  | .decided d => d.outcome.code

end Ending

/-- What a process finds besides the machine: the files a line of arguments can name, a terminal,
random bytes, the operating system's answers, and a reader of JSON. -/
structure Surroundings where
  readToString : Text → Except Text Text
  acquire : Except Text Terminal
  entropy : Except Text CreateEntropy
  nonceSeed : Except Text (Block nonceSeedLen)
  /-- Whether a look at the directory can tell what is in it. -/
  looked : Bool
  answers : Answers
  display : CreateError → Text
  read : Bytes → Option Json.Value

def Surroundings.host (env : Surroundings) (dir : Text) : Host :=
  ⟨dir, env.looked, env.answers, env.display⟩

/-- What a process acts on: the directory its arguments name, the terminal's transcript, and the node
with what was posted to it. -/
structure Machine (D : Type) where
  medium : D
  said : List Said
  node : Node
  explorer : Transport
  posted : List Bytes

def passwordPrompt : Text := "password: ".toList

def cannotUseNode (url e : Text) : Text := "cannot use node ".toList ++ url ++ ": ".toList ++ e

def cannotOpen (dir e : Text) : Text := "cannot open the keystore at ".toList ++ dir ++ ": ".toList ++ e

variable [Crypto]

/-- A handle on no store, for what is handed one and drops it unread. -/
def noStore : Keystore :=
  ⟨.poisoned .missing, none, ⟨.zero keyLen, .recommended, .zero saltLen, .zero nonceSeedLen⟩, version, version⟩

/-- A layout that stores are made on and opened on. -/
class Openable (D : Type) extends Storage D where
  openWith : Answers → Unlock → Call D Error Keystore

instance : Openable UnixMedium := ⟨Keystore.openWith⟩

instance : Openable SlotMedium := ⟨openSlots⟩

section
variable {D ε α : Type}

namespace Machine

def desk (m : Machine D) (ks : Keystore) : Desk D := ⟨⟨⟨⟨ks, m.medium⟩, m.node⟩, m.posted⟩, m.explorer⟩

def left (m : Machine D) (t : Desk D) : Machine D :=
  ⟨t.posting.session.store.medium, m.said, t.posting.session.node, t.explorer, t.posting.posted⟩

/-- Run a command on a handle, which is let go of when it ends. -/
def atDesk (ks : Keystore) (x : Call (Desk D) Empty Decided) : Call (Machine D) ε Ending := fun m =>
  match x (m.desk ks) with
  | (r, t) => ((r.map .decided).mapErr Empty.elim, m.left t)

def onScene (x : Call (Scene D) ε α) : Call (Machine D) ε α :=
  Call.zoom (fun m => ⟨m.medium, m.said⟩) (fun s m => { m with medium := s.medium, said := s.said }) x

def onDirectory (x : Call D ε α) : Call (Machine D) ε α :=
  Call.zoom medium (fun medium m => { m with medium }) x

end Machine

open Machine

/-- A refusal to start, as the page it is printed as. -/
def notStarted (text : Text) : Ending := .report ⟨text, .startupRefused⟩

/-- One line from the terminal, which is opened for it. -/
def askPassword (env : Surroundings) : Call (Scene D) Text Text := do
  let term ← Call.check env.acquire
  term.readSecretLine passwordPrompt

variable [Bip39] [Openable D]

/-- Ask for the password, open the store, and run a command on it. -/
def runOnStore (env : Surroundings) (dir : Text) (command : Command) : Call (Machine D) Ending Ending := do
  let password ← (onScene (askPassword env)).mapErr notStarted
  let nonceSeed ← Call.check (env.nonceSeed.mapError notStarted)
  let ks ← (onDirectory (Openable.openWith env.answers ⟨password.utf8, nonceSeed⟩)).mapErr fun e =>
    notStarted (cannotOpen dir (env.display (.store e)))
  atDesk ks (command.decide env.read)

/-- What a parsed line runs; a refusal is its page. -/
def runInvocation (env : Surroundings) (inv : Invocation) : Call (Machine D) Ending Ending :=
  match inv.node.elim (.ok []) baseUrl with
  | .error e => pure (notStarted (cannotUseNode (inv.node.getD []) (env.display (.store e))))
  | .ok _ =>
    match inv.command with
    | .create fromPhrase => do
      let report ← onScene fun s =>
        match orchestrate (env.host inv.dir) fromPhrase env.entropy env.acquire s with
        | (r, t) => (r.mapErr Empty.elim, t)
      pure (.report report)
    | .submit artifact => atDesk noStore (runSubmit artifact)
    | command =>
      if command.opensNoStore then atDesk noStore (beforeTheGate (runExplorer env.read command))
      else runOnStore env inv.dir command

/-- An ending, whether the process refused with it or came to it. -/
def ended : Reply Ending Ending → Reply Empty Ending
  | .ok ending | .err ending => .ok ending
  | .killed => .killed

/-- A process, from its arguments to what it prints. -/
def runFromArgv (env : Surroundings) (argv : List Text) : Call (Machine D) Empty Ending :=
  match parse env.readToString argv with
  | .error refusal => pure (.usage refusal)
  | .ok .help => pure .help
  | .ok (.run inv) => fun m =>
    match runInvocation env inv m with
    | (r, m) => (ended r, m)

end

end MochimoWallet.Cli
