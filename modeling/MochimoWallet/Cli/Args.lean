import MochimoWallet.Cli.Node
import MochimoWallet.Mesh.Spend
import MochimoWallet.TagText

/-!
# The arguments

What an operator types is read once, before anything is opened or asked: a `Usage` says what was
wrong with it. Flags for the whole program come first, then the verb, then what the verb takes; each
verb reads its own tail, some of it by position and some by scanning for the name of a flag.
-/

namespace MochimoWallet.Cli

open Codec

/-- Why the arguments are refused. -/
structure Usage where
  text : Text
  deriving DecidableEq

/-! ## Tags -/

def hexPrefix : Text := "0x".toList

/-- A text between the marks a message quotes it in. -/
def quoted (t : Text) : Text := "`".toList ++ t ++ "`".toList

/-- The one tag whose own checksum cannot refuse it. -/
def refuseTheZeroTag (tag : Tag) (given : Text) (what : String) : Except Usage Tag :=
  if tag.1.any (· ≠ 0) then .ok tag
  else
    .error ⟨what.toList ++ ": ".toList ++ quoted given ++
      (" is the all-zero tag, and this wallet will not use it.\n  Its checksum is zero as well -- " ++
        "crc16 of twenty zero bytes is 0 -- so the CRC16 that refuses every other mistyped " ++
        "destination cannot refuse this one. It is what an uninitialised or truncated buffer " ++
        "produces, the chain will credit it, and nothing can ever spend it again.").toList⟩

/-- The bytes read so far, and the high half of one that is begun. -/
structure HexRead where
  out : Bytes
  hi : Option ℕ

def hexPush (s : Text) (what : String) (read : HexRead) (c : Char) : Except Usage HexRead :=
  match Hex.digit c with
  | none => .error ⟨what.toList ++ ": ".toList ++ quoted s ++ " is not hexadecimal".toList⟩
  | some d =>
    match read.hi with
    | none => .ok { read with hi := some d }
    | some h =>
      if read.out.length < addrTagLen then .ok ⟨read.out ++ [.ofNat (16 * h + d)], none⟩
      else
        .error ⟨what.toList ++ ": ".toList ++ quoted s ++ " is longer than ".toList ++
          .ofNat addrTagLen ++ " bytes".toList⟩

def tagFromHex (s : Text) (what : String) : Except Usage Tag := do
  let body := (s.stripPrefix hexPrefix).getD s
  let read ← body.foldlM (hexPush s what) ⟨[], none⟩
  if h : read.hi = none ∧ read.out.length = addrTagLen then .ok ⟨read.out, h.2⟩
  else
    .error ⟨what.toList ++ ": ".toList ++ quoted s ++ " is ".toList ++ .ofNat body.length ++
      " hex characters; a tag is ".toList ++ .ofNat (addrTagLen * 2)⟩

/-- A tag as it is typed: a destination, or `0x` and its digits. -/
def tagFromText (s : Text) (what : String) : Except Usage Tag :=
  let t := s.trim
  if t.startsWith hexPrefix then do
    let tag ← tagFromHex t what
    refuseTheZeroTag tag t what
  else if t.length = addrTagLen * 2 ∧ t.all Hex.isDigit then
    .error ⟨what.toList ++ ": ".toList ++ quoted t ++ " is a bare hex tag. Write it as ".toList ++
      quoted (hexPrefix ++ t) ++
      (" if that is what you mean.\n  Hex carries no checksum, so it is accepted only when you say " ++
        "it is hex. The reason is specific: `address` prints a 40-byte ledger address as eighty " ++
        "hex characters, and its second half is also forty hex characters -- a tag nobody holds, " ++
        "which a bare-hex parser would take without complaint.").toList⟩
  else
    match tagFromBase58 t with
    | .ok tag => refuseTheZeroTag tag t what
    | .error e =>
      .error ⟨what.toList ++ ": ".toList ++ quoted t ++ " is not a destination -- ".toList ++
        e.display ++
        (".\n  A destination is Base58 over a tag and its CRC16, which is what every Mochimo " ++
          "wallet emits; `0x` and ").toList ++ .ofNat (addrTagLen * 2) ++
        " hex characters is accepted too.".toList⟩

/-! ## Commands -/

/-- One destination as it was typed; no amount is the word `all`. -/
structure SpendTo where
  toTag : Tag
  reference : Block addrRefLen
  amount : Option UInt64
  deriving DecidableEq

structure Spend where
  tag : Tag
  dsts : List SpendTo
  feeTotal : UInt64
  blkToLive : UInt64
  deriving DecidableEq

inductive BlockAt where
  | index (n : UInt64)
  | hash (h : Block hashLen)
  deriving DecidableEq

inductive Command where
  | create (fromPhrase : Bool)
  | balance
  | address (tag : Option Tag) (account : Option UInt32)
  | send (spend : Spend)
  | settle (tag : Tag)
  | resign (spend : Spend)
  | reconcile (tag : Tag) (advanceTo : UInt32)
  | restore (account : UInt32) (scanTo : Option UInt32)
  | status (tag : Tag) (scanTo : Option UInt32)
  | submit (artifact : Text)
  | lookupTransaction (hash : Block hashLen)
  | recentTransactions (tag : Tag) (count skip : UInt64)
  | block (place : BlockAt)
  | blocks (count : UInt64)
  | mempool (count : UInt64)
  | discover (upTo : UInt32)
  deriving DecidableEq

def Command.needsNode : Command → Bool
  | .create _ | .address _ _ => false
  | _ => true

structure Invocation where
  dir : Text
  node : Option Text
  command : Command
  deriving DecidableEq

inductive ParsedArgv where
  | help
  | run (invocation : Invocation)
  deriving DecidableEq

/-! ## Flags -/

def u64Arg (s : Text) (what : String) : Except Usage UInt64 :=
  match s.parseU64 with
  | some n => .ok n
  | none => .error ⟨what.toList ++ ": ".toList ++ quoted s ++ " is not a whole number".toList⟩

/-- The value after the first token that is the flag's name. -/
def textFlag (rest : List Text) (name : Text) : Except Usage (Option Text) :=
  match rest with
  | [] => .ok none
  | a :: it =>
    if a = name then
      match it with
      | v :: _ => .ok (some v)
      | [] => .error ⟨name ++ " needs a value".toList⟩
    else textFlag it name

def u64Flag (rest : List Text) (name : Text) : Except Usage (Option UInt64) := do
  match ← textFlag rest name with
  | some v =>
    let n ← u64Arg v "flag value"
    return some n
  | none => return none

def bareFlag (rest : List Text) (name : Text) : Bool := rest.any (· = name)

/-- The tail is flags and nothing else, each known and none given twice; `seen` are those before. -/
def rejectFlags (valued bare : List Text) : List Text → List Text → Except Usage Unit
  | _, [] => .ok ()
  | seen, a :: it =>
    if a ∉ bare ∧ a ∉ valued then .error ⟨"unexpected argument ".toList ++ quoted a⟩
    else if a ∈ seen then .error ⟨a ++ " given twice".toList⟩
    else if a ∈ bare then rejectFlags valued bare (seen ++ [a]) it
    else
      match it with
      | [] => .error ⟨a ++ " needs a value".toList⟩
      | _ :: it => rejectFlags valued bare (seen ++ [a]) it

def rejectUnknownFlags (rest valued bare : List Text) : Except Usage Unit :=
  rejectFlags valued bare [] rest

def dashes : Text := "--".toList
def dirFlag : Text := "--dir".toList
def nodeFlag : Text := "--node".toList
def allowFlag : Text := "--allow-plaintext-node".toList
def fromPhraseFlag : Text := "--from-phrase".toList
def accountFlag : Text := "--account".toList
def scanToFlag : Text := "--scan-to".toList
def advanceToFlag : Text := "--advance-to".toList
def destinationsFlag : Text := "--destinations".toList
def feeFlag : Text := "--fee".toList
def btlFlag : Text := "--btl".toList
def refFlag : Text := "--ref".toList
def countFlagName : Text := "--count".toList
def fromFlagName : Text := "--from".toList
def toFlag : Text := "--to".toList

/-! ## References and amounts -/

def referenceRule : Text :=
  ("a reference is up to sixteen characters: groups of uppercase letters A-Z or digits 0-9, each " ++
    "group all one kind, neighbouring groups of different kinds, single dashes between groups and " ++
    "none at either end -- `AB-00-EF`, `123-CDE-789`, `ABC` and `123` are accepted; `AB-CD-EF`, " ++
    "`123-456-789`, `ABC-` and `-123` are not").toList

def noReference : Block addrRefLen := ⟨List.replicate addrRefLen 0, List.length_replicate⟩

/-- A reference's text, and zeros to the width of the field; `whose` is where it was written. -/
def referenceField (text whose : Text) : Except Usage (Block addrRefLen) :=
  let bytes := text.utf8
  if ¬ text.isAscii then
    .error ⟨whose ++ ": ".toList ++ quoted text ++ " is not ASCII; ".toList ++ referenceRule⟩
  else if h : addrRefLen < bytes.length then
    .error ⟨whose ++ ": ".toList ++ quoted text ++ " is ".toList ++ .ofNat bytes.length ++
      " characters and the field holds ".toList ++ .ofNat addrRefLen ++ "; ".toList ++ referenceRule⟩
  else
    let field : Block addrRefLen := ⟨bytes ++ List.replicate (addrRefLen - bytes.length) 0, by
      rw [List.length_append, List.length_replicate]; omega⟩
    if ¬ referenceIsValid field then
      .error ⟨whose ++ ": ".toList ++ quoted text ++
        " does not follow the node's rule for a destination reference; ".toList ++ referenceRule⟩
    else .ok field

def referenceFlag (rest : List Text) : Except Usage (Block addrRefLen) := do
  match ← textFlag rest refFlag with
  | none => return noReference
  | some text => referenceField text refFlag

def amountArg (s : Text) (single : Bool) : Except Usage (Option UInt64) :=
  if s = "all".toList then
    if single then .ok none
    else
      .error ⟨("`all` means the whole balance less the fee and is only available for a single " ++
        "destination; give each destination its own amount").toList⟩
  else do
    let n ← u64Arg s "amount"
    return some n

/-! ## Spends -/

def checkDestinations (dsts : List SpendTo) : Except Usage Unit :=
  if dsts = [] ∨ maxDestinations < dsts.length then
    .error ⟨"a spend carries 1 to ".toList ++ .ofNat maxDestinations ++ " destinations and ".toList ++
      .ofNat dsts.length ++ " were given".toList⟩
  else
    let repeated := dsts.zipIdx.findSome? fun (d, i) =>
      ((dsts.take i).findIdx? (·.toTag = d.toTag)).map (·, i)
    match repeated with
    | none => .ok ()
    | some (j, i) =>
      .error ⟨"destinations ".toList ++ .ofNat (j + 1) ++ " and ".toList ++ .ofNat (i + 1) ++
        (" are the same tag. The node would accept it, but one tag twice in one spend is almost " ++
          "always a mistyped payee and the money does not come back; send twice if you mean it").toList⟩

/-- A line of a file of destinations; a blank one and a comment are nothing. -/
def destinationLine (path : Text) (n : ℕ) (raw : Text) : Except Usage (Option SpendTo) :=
  let place := path ++ " line ".toList ++ .ofNat (n + 1)
  match Text.splitWhitespace (raw.takeWhile (· ≠ '#')) with
  | [] => .ok none
  | [dst] => .error ⟨place ++ ": ".toList ++ quoted dst ++ " has no amount".toList⟩
  | dst :: amount :: more => do
    let reference ← match more with
      | r :: _ => referenceField r place
      | [] => .ok noReference
    match more with
    | _ :: surplus :: _ =>
      .error ⟨place ++ ": unexpected ".toList ++ quoted surplus ++
        "; a line is <to> <amount> [<ref>]".toList⟩
    | _ => do
      let toTag ← tagFromText dst "destination tag"
      let amount ← u64Arg amount "amount"
      return some ⟨toTag, reference, some amount⟩

def destinationsFromText (text path : Text) : Except Usage (List SpendTo) := do
  let read ← text.lines.zipIdx.mapM fun (raw, n) => destinationLine path n raw
  if read.reduceOption = [] then
    .error ⟨path ++ ": no destinations; every line was blank or a comment".toList⟩
  else return read.reduceOption

/-- The pairs of a destination and an amount. -/
def destinationPairs (verb : Text) (reference : Block addrRefLen) (single : Bool) :
    List Text → Except Usage (List SpendTo)
  | [] => .ok []
  | [dst] => .error ⟨verb ++ ": ".toList ++ quoted dst ++ " has no amount".toList⟩
  | dst :: amount :: it => do
    let toTag ← tagFromText dst "destination tag"
    let amount ← amountArg amount single
    let dsts ← destinationPairs verb reference single it
    return ⟨toTag, reference, amount⟩ :: dsts

/-- The pairs run until the first flag. -/
def spendPairs (after : List Text) (verb : Text) : Except Usage (List SpendTo × List Text) := do
  let pairs := after.takeWhile fun a => ¬ a.startsWith dashes
  let tail := after.dropWhile fun a => ¬ a.startsWith dashes
  if pairs = [] then .error ⟨verb ++ " needs <tag> <to> <amount>".toList⟩
  else if pairs.length % 2 ≠ 0 then
    .error ⟨verb ++ " takes <to> <amount> pairs and ".toList ++ .ofNat pairs.length ++
      (" token(s) were given after the tag; the last destination has no amount").toList⟩
  else do
    rejectUnknownFlags tail [feeFlag, btlFlag, refFlag] []
    let single := pairs.length = 2
    let reference ← referenceFlag tail
    if ¬ single ∧ reference ≠ noReference then
      .error ⟨"--ref names one destination's reference and ".toList ++ .ofNat (pairs.length / 2) ++
        (" were given; use `--destinations <path>`, whose third column is a reference per " ++
          "line").toList⟩
    else do
      let dsts ← destinationPairs verb reference single pairs
      return (dsts, tail)

section
-- the text of the file at a path, or how the failure to read it is shown
variable (readToString : Text → Except Text Text)

/-- The file that `--destinations` names. -/
def spendFile (after : List Text) : Except Usage (List SpendTo × List Text) := do
  rejectUnknownFlags after [destinationsFlag, feeFlag, btlFlag, refFlag] []
  match ← textFlag after refFlag with
  | some _ =>
    .error ⟨("--ref names one destination's reference and --destinations carries a reference per " ++
      "line; give it in the file's third column instead").toList⟩
  | none =>
    match ← textFlag after destinationsFlag with
    | none => .error ⟨"--destinations needs a value".toList⟩
    | some path =>
      match readToString path with
      | .error e => .error ⟨"--destinations: cannot read ".toList ++ quoted path ++ ": ".toList ++ e⟩
      | .ok text => do
        let dsts ← destinationsFromText text path
        return (dsts, after)

/-- The least fee of so many destinations. -/
def defaultFee (dsts : List SpendTo) : UInt64 :=
  .ofNat (min (mfee * min dsts.length u64Max) u64Max)

def spendArgs (rest : List Text) (verb : Text) : Except Usage Spend :=
  match rest with
  | [] => .error ⟨verb ++ " needs <tag> <to> <amount>".toList⟩
  | tagText :: after => do
    let tag ← tagFromText tagText "source tag"
    let (dsts, tail) ←
      if after.head? = some destinationsFlag then spendFile readToString after
      else spendPairs after verb
    checkDestinations dsts
    let fee ← u64Flag tail feeFlag
    let btl ← u64Flag tail btlFlag
    return ⟨tag, dsts, fee.getD (defaultFee dsts), btl.getD 0⟩

end

/-! ## What the other verbs take -/

abbrev maxFrom : ℕ := 2 ^ 63 - 1
abbrev defaultCount : UInt64 := 5
abbrev maxCount : ℕ := 100
abbrev discoverDefaultTo : UInt32 := 64
abbrev discoverMaxTo : ℕ := 1024

def countValue (rest : List Text) : Except Usage UInt64 := do
  let n := (← u64Flag rest countFlagName).getD defaultCount
  if n = 0 ∨ maxCount < n.toNat then
    .error ⟨"--count: ".toList ++ .ofNat n.toNat ++ " is outside 1..=".toList ++ .ofNat maxCount ++
      (". The Mesh's search endpoint takes a limit only inside that window and otherwise answers " ++
        "with its own default of ten rows without saying so, so a count it would ignore is " ++
        "refused here instead").toList⟩
  else return n

def countFlag (rest : List Text) : Except Usage UInt64 := do
  rejectUnknownFlags rest [countFlagName] []
  countValue rest

def fromFlag (rest : List Text) : Except Usage UInt64 := do
  let m := (← u64Flag rest fromFlagName).getD 0
  if maxFrom < m.toNat then
    .error ⟨"--from: ".toList ++ .ofNat m.toNat ++ " is outside 0..=".toList ++ .ofNat maxFrom ++
      (". The Mesh reads an offset as a signed 64-bit number and answers a larger one as an " ++
        "invalid request, so it is refused here instead").toList⟩
  else return m

def discoverToFlag (rest : List Text) : Except Usage UInt32 := do
  rejectUnknownFlags rest [toFlag] []
  match ← u64Flag rest toFlag with
  | none => return discoverDefaultTo
  | some n =>
    let outside := "--to: ".toList ++ Text.ofNat n.toNat ++ " is outside 1..=".toList ++
      Text.ofNat discoverMaxTo
    if n = 0 then
      .error ⟨outside ++
        (". A sweep bounded at 0 searches only account index 0, which a store with a master " ++
          "already holds, so it can observe nothing the store does not record while still costing " ++
          "a node call -- `address` with no argument lists what is here, and `balance` reports it. " ++
          "Zero is also what an unexpanded shell variable produces").toList⟩
    else if n.toNat ≤ discoverMaxTo then return n.toUInt32
    else
      .error ⟨outside ++
        (". Every index in the sweep is one call to the node, so the ceiling is this program's " ++
          "own: it keeps a mistyped number from turning into thousands of round trips before the " ++
          "first line of output. Name a bound at or below ").toList ++ .ofNat discoverMaxTo⟩

/-- Two digits of a hash, at place `i`. -/
def hashPair (body : Text) (i : ℕ) : Option UInt8 :=
  (Text.get body (i * 2) (i * 2 + 2)).bind Hex.u8FromStrRadix

def hashArg (arg : Option Text) (verb : Text) : Except Usage (Block hashLen) :=
  match arg with
  | none => .error ⟨verb ++ " needs <hash>".toList⟩
  | some text =>
    let body := (text.stripPrefix hexPrefix).getD text
    if body.byteLen ≠ hashLen * 2 ∨ ¬ body.all Hex.isDigit then
      .error ⟨verb ++ ": ".toList ++ quoted text ++ " is not a transaction hash; it is ".toList ++
        .ofNat body.byteLen ++ " hex characters and a hash is ".toList ++ .ofNat (hashLen * 2) ++
        " (with or without a leading `0x`)".toList⟩
    else
      let out := (List.range hashLen).filterMap (hashPair body)
      if h : out.length = hashLen then .ok ⟨out, h⟩
      else .error ⟨verb ++ ": ".toList ++ quoted text ++ " is not a hash".toList⟩

def blockAt (arg : Option Text) : Except Usage BlockAt :=
  match arg with
  | none => .error ⟨"block needs <number> or <hash>".toList⟩
  | some text =>
    if text.all (fun c => '0' ≤ c ∧ c ≤ '9') then do
      let n ← u64Arg text "block number"
      if n = 0 then
        .error ⟨("block 0: the Mesh serves index 0 as the CURRENT block, not as genesis -- its " ++
          "getBlock routes by number only for a non-zero index -- so a page for `block 0` would be " ++
          "the tip under the wrong name. Use `blocks` for the tip, or name a block from 1 up").toList⟩
      else return .index n
    else do
      let hash ← hashArg arg "block".toList
      return .hash hash

/-- A key index; the last position is refused as well, since none follows it. -/
def indexFlag (rest : List Text) (name : Text) : Except Usage (Option UInt32) := do
  match ← u64Flag rest name with
  | none => return none
  | some n =>
    if n.toNat < u32Max then return some n.toUInt32
    else
      .error ⟨name ++ ": ".toList ++ .ofNat n.toNat ++
        " is out of range; key indices run from 0 to ".toList ++ .ofNat (u32Max - 1)⟩

def leadingTag (rest : List Text) (verb : Text) : Except Usage Tag :=
  match rest with
  | t :: _ =>
    if ¬ t.startsWith dashes then tagFromText t "tag" else .error ⟨verb ++ " needs <tag>".toList⟩
  | [] => .error ⟨verb ++ " needs <tag>".toList⟩

def artifactArg (rest : List Text) (verb : Text) : Except Usage Text :=
  match rest with
  | a :: more =>
    if a.startsWith dashes then .error ⟨verb ++ " needs <artifact-hex>".toList⟩
    else if more = [] then .ok a
    else .error ⟨verb ++ " takes one <artifact-hex>".toList⟩
  | [] => .error ⟨verb ++ " needs <artifact-hex>".toList⟩

def tagArg (rest : List Text) (verb : Text) : Except Usage Tag :=
  match rest with
  | [t] => tagFromText t "tag"
  | _ :: _ => .error ⟨verb ++ " takes one tag".toList⟩
  | [] => .error ⟨verb ++ " needs <tag>".toList⟩

def optionalTagArg (rest : List Text) (verb : Text) : Except Usage (Option Tag) :=
  match rest with
  | [] => .ok none
  | [t] => do
    let tag ← tagFromText t "tag"
    return some tag
  | _ :: _ => .error ⟨verb ++ " takes one tag, or none at all".toList⟩

/-- `--account`, which the verb cannot do without. -/
def accountArg (rest : List Text) (missing : String) : Except Usage UInt32 := do
  match ← u64Flag rest accountFlag with
  | none => .error ⟨missing.toList⟩
  | some n =>
    if n.toNat ≤ u32Max then return n.toUInt32
    else .error ⟨"--account: ".toList ++ .ofNat n.toNat ++ " is out of range".toList⟩

/-! ## The verb and its command -/

inductive Verb where
  | balance | create | address | status | settle | send | resign | transaction
  | recentTransactions | block | blocks | mempool | discover | submit | reconcile | restore
  deriving DecidableEq

namespace Verb

def name : Verb → Text
  | balance => "balance".toList
  | create => "create".toList
  | address => "address".toList
  | status => "status".toList
  | settle => "settle".toList
  | send => "send".toList
  | resign => "resign".toList
  | transaction => "transaction".toList
  | recentTransactions => "recent-transactions".toList
  | block => "block".toList
  | blocks => "blocks".toList
  | mempool => "mempool".toList
  | discover => "discover".toList
  | submit => "submit".toList
  | reconcile => "reconcile".toList
  | restore => "restore".toList

def all : List Verb :=
  [balance, create, address, status, settle, send, resign, transaction, recentTransactions, block,
    blocks, mempool, discover, submit, reconcile, restore]

def ofText (t : Text) : Option Verb := all.find? (·.name = t)

end Verb

section
variable (readToString : Text → Except Text Text)

/-- The command of a verb and what follows it. -/
def command (verb : Verb) (rest : List Text) : Except Usage Command :=
  match verb with
  | .balance => do
    rejectUnknownFlags rest [] []
    return .balance
  | .create => do
    rejectUnknownFlags rest [] [fromPhraseFlag]
    return .create (bareFlag rest fromPhraseFlag)
  | .address =>
    if bareFlag rest accountFlag then do
      rejectUnknownFlags rest [accountFlag] []
      let account ← accountArg rest "--account needs a value"
      return .address none (some account)
    else do
      let tag ← optionalTagArg rest verb.name
      return .address tag none
  | .status => do
    let tag ← leadingTag rest verb.name
    rejectUnknownFlags rest.tail [scanToFlag] []
    let scanTo ← indexFlag rest.tail scanToFlag
    return .status tag scanTo
  | .settle => do
    let tag ← tagArg rest verb.name
    return .settle tag
  | .send => do
    let spend ← spendArgs readToString rest verb.name
    return .send spend
  | .resign => do
    let spend ← spendArgs readToString rest verb.name
    return .resign spend
  | .transaction => do
    let hash ← hashArg rest.head? verb.name
    return .lookupTransaction hash
  | .recentTransactions => do
    let tag ← leadingTag rest verb.name
    rejectUnknownFlags rest.tail [countFlagName, fromFlagName] []
    let count ← countValue rest.tail
    let skip ← fromFlag rest.tail
    return .recentTransactions tag count skip
  | .block => do
    let place ← blockAt rest.head?
    return .block place
  | .blocks => do
    let count ← countFlag rest
    return .blocks count
  | .mempool => do
    let count ← countFlag rest
    return .mempool count
  | .discover => do
    let upTo ← discoverToFlag rest
    return .discover upTo
  | .submit => do
    let artifact ← artifactArg rest verb.name
    return .submit artifact
  | .reconcile => do
    let tag ← leadingTag rest verb.name
    rejectUnknownFlags rest.tail [advanceToFlag] []
    match ← indexFlag rest.tail advanceToFlag with
    | none => .error ⟨"reconcile needs --advance-to <N>".toList⟩
    | some advanceTo => return .reconcile tag advanceTo
  | .restore => do
    rejectUnknownFlags rest [accountFlag, scanToFlag] []
    let account ← accountArg rest "restore needs --account <N>"
    let scanTo ← indexFlag rest scanToFlag
    return .restore account scanTo

/-! ## The whole line -/

def asksForHelp (a : Text) : Bool := a = "-h".toList || a = "--help".toList || a = "help".toList

/-- The flags for the whole program. -/
structure Globals where
  dir : Option Text
  node : Option Text
  allowPlaintext : Bool

/-- The flags before the verb, the verb and what follows it; nothing where help is asked for. -/
def readGlobals (g : Globals) : List Text → Except Usage (Option (Globals × Text × List Text))
  | [] => .error ⟨"no command".toList⟩
  | a :: it =>
    if asksForHelp a then .ok none
    else if a = dirFlag then
      if g.dir.isSome then .error ⟨"--dir given twice".toList⟩
      else
        match it with
        | v :: it => readGlobals { g with dir := some v } it
        | [] => .error ⟨"--dir needs a value".toList⟩
    else if a = nodeFlag then
      if g.node.isSome then .error ⟨"--node given twice".toList⟩
      else
        match it with
        | v :: it => readGlobals { g with node := some v } it
        | [] => .error ⟨"--node needs a value".toList⟩
    else if a = allowFlag then
      if g.allowPlaintext then .error ⟨"--allow-plaintext-node given twice".toList⟩
      else readGlobals { g with allowPlaintext := true } it
    else if a.startsWith dashes then .error ⟨"unknown global flag ".toList ++ quoted a⟩
    else .ok (some (g, a, it))

def plaintextNodeRefusal (url : Text) : Text :=
  "--node ".toList ++ url ++
    (" is plaintext http to a host that is not loopback, and everything this wallet decides comes " ++
      "from that link: the balance a spend is laid out against, the ledger address reconciliation " ++
      "compares its own record to, the chain tip a block-to-live is judged against, and the key " ++
      "position that says whether a key has already signed. Anyone on the path can rewrite all of " ++
      "it, and can read every tag you ask about.\n  A rewritten balance does not move funds -- the " ++
      "node checks send + change + fee against the ledger and rejects a transaction built on a lie " ++
      "-- but a rewritten reconciliation report is what `reconcile --advance-to` acts on.\n  " ++
      "ACTION: use an https node, or pass --allow-plaintext-node to accept this. http to " ++
      "127.0.0.0/8, ::1 or localhost needs no flag.").toList

/-- What is asked of a command and the flags before it, once the command has been read. -/
def invocation (g : Globals) (verb : Text) (command : Command) : Except Usage Invocation :=
  match g.dir with
  | none => .error ⟨"--dir is required".toList⟩
  | some dir =>
    match g.node.filter fun url => plaintextOffLoopback url && ¬ g.allowPlaintext with
    | some url => .error ⟨plaintextNodeRefusal url⟩
    | none =>
      if command.needsNode ∧ g.node = none then
        .error ⟨"--node is required for ".toList ++ quoted verb ++
          (", which asks a node before it runs; only `create` and `address` work without " ++
            "one").toList⟩
      else .ok ⟨dir, g.node, command⟩

/-- What the line asks for, without the program's name. -/
def parse (argv : List Text) : Except Usage ParsedArgv := do
  match ← readGlobals ⟨none, none, false⟩ argv with
  | none => return .help
  | some (g, verb, rest) =>
    match rest.find? asksForHelp with
    | some h =>
      .error ⟨"unexpected argument ".toList ++ quoted h ++ " after ".toList ++ quoted verb ++
        "; help is `help` as the command, or -h or --help before it".toList⟩
    | none =>
      match Verb.ofText verb with
      | none => .error ⟨"unknown command ".toList ++ quoted verb⟩
      | some v => do
        let command ← command readToString v rest
        let run ← invocation g verb command
        return .run run

end

end MochimoWallet.Cli
