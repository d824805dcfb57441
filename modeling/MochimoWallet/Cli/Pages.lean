import MochimoWallet.Cli.Create
import MochimoWallet.Cli.Explorer
import MochimoWallet.Mesh.Codec

/-!
# The explorer's pages

The block, recent-transactions and mempool pages, from what the codec accepted. A page sums the
amounts of operations in 128-bit words, so it is `none` where a sum overflows one: the figures are
summed first, and the report is what is printed of them.
-/

namespace MochimoWallet.Cli

open Codec Words Mesh

/-! ## Figures -/

def nanoPerMcm : ℕ := 1000000000

/-- An amount in nanoMCM, and beside it in MCM. -/
def nanoAndMcm (v : I128) : Text :=
  let a := v.unsignedAbs
  let whole := a / nanoPerMcm
  let frac := a % nanoPerMcm
  let minus : Text := if v.toInt < 0 then ['-'] else []
  minus ++ Text.ofNat a ++ " nanoMCM (".toList ++ minus ++ Text.ofNat whole ++ '.' ::
    Text.padLeft 9 '0' (Text.ofNat frac) ++ " MCM)".toList

/-- A time in milliseconds, and beside it in whole seconds. -/
def stamp (ms : Int64) : Text :=
  Text.ofInt ms.toInt ++ " ms since the epoch (".toList ++ Text.ofInt (ms / 1000).toInt ++
    " s)".toList

/-- An unsigned number in a column. -/
def column (width : ℕ) (n : UInt64) : Text := Text.padLeft width ' ' (Text.ofNat n.toNat)

def searchConvention : Text :=
  ("read from /search/transactions, the Mesh's indexer. That endpoint replays rows written when " ++
    "the block was first seen: the source is debited its GROSS amount and the change comes back as " ++
    "its own destination. /block re-parses the wire and shows the NET debit with no change " ++
    "operation. Both are correct and this page does not reconcile them.").toList

def blockConvention : Text :=
  ("read from /block, which re-parses the wire: a source is debited its NET amount and the change " ++
    "does not appear as an operation. The indexer's /search/transactions shows the same transaction " ++
    "gross, with the change as a destination.").toList

def mempoolConvention : Text :=
  ("read from /mempool and /mempool/transaction, which render a waiting transaction as /block " ++
    "renders one: the source debited its NET amount and the change not an operation. The queue is " ++
    "the node's own; another node's may differ.").toList

def operationLines (ops : List Operation) (indent : Text) : Text :=
  ops.flatMap fun op =>
    indent ++ column 2 op.index ++ ". ".toList ++ Text.padRight 21 ' ' (terminalText op.kind) ++
      " ".toList ++ nanoAndMcm op.amount ++ "\n".toList ++
      indent ++ "    ".toList ++ explorerAddress op.address ++ "\n".toList ++
      if op.memo = [] then [] else indent ++ "    memo ".toList ++ terminalText op.memo ++ "\n".toList

/-- The amounts of the operations of one kind. -/
def amountsOf (kind : Text) (ops : List Operation) : List I128 :=
  (ops.filter fun o => o.kind = kind).map Operation.amount

def Report.ok (text : Text) : Report := ⟨text, .ok⟩

def cannotRender (tag : Tag) (e : ReferenceError) : Report :=
  .refused ("cannot render the destination for the tag whose hex is ".toList ++ Hex.ofBytes tag.1 ++
    ": ".toList ++ e.display)

/-! ## What touched a tag -/

/-- The operation's address is the tag's hex, with `0x` before it or without. -/
def touches (tag : Tag) (o : Operation) : Bool := addressBody o.address = Hex.ofBytes tag.1

def touching (tag : Tag) (tx : MeshTransaction) : List I128 :=
  (tx.operations.filter (touches tag)).map Operation.amount

def direction (tag : Tag) (tx : MeshTransaction) : Text :=
  let outOps := tx.operations.any fun o => o.kind = opSource && touches tag o
  let inOps := tx.operations.any fun o => o.kind = opDestination && touches tag o
  match outOps, inOps with
  | true, true => "both".toList
  | true, false => "out".toList
  | false, true => "in".toList
  | false, false => "--".toList

def recentRow (tag : Tag) (tx : MeshTransaction) (touched : I128) : Text :=
  let memo := ((tx.operations.find? fun o => o.memo ≠ []).map fun o => terminalText o.memo).getD []
  "  block ".toList ++ column 9 ((tx.block.map ChainTip.index).getD 0) ++ "  ".toList ++
    Hex.ofBytes tx.hash.1 ++ "  ".toList ++ Text.padRight 4 ' ' (direction tag tx) ++ "  ".toList ++
    nanoAndMcm touched ++ "\n".toList ++
    if memo = [] then [] else "                    memo ".toList ++ memo ++ "\n".toList

def recentHead (shown : Text) (from' : UInt64) (page : SearchPage) : Text :=
  let rows : UInt64 := .ofNat page.transactions.length
  "recent transactions for ".toList ++ shown ++ "\n  ".toList ++
    if from' = 0 then
      Text.ofNat rows.toNat ++ " of ".toList ++ Text.ofNat page.totalCount.toNat ++
        " row(s), newest first\n".toList
    else if rows = 0 then
      "0 of ".toList ++ Text.ofNat page.totalCount.toNat ++ " row(s) after the ".toList ++
        Text.ofNat from'.toNat ++ " newest\n".toList
    else
      "rows ".toList ++ Text.ofNat (saturatingAdd64 from' 1).toNat ++ " to ".toList ++
        Text.ofNat (saturatingAdd64 from' rows).toNat ++ " of ".toList ++
        Text.ofNat page.totalCount.toNat ++ ", newest first: the ".toList ++ Text.ofNat from'.toNat ++
        " newest are skipped\n".toList

def recentNone (from' : UInt64) (page : SearchPage) : Text :=
  if page.transactions ≠ [] then []
  else if from' = 0 then
    ("  (none: this node's index holds no transaction for this tag. A tag never paid has " ++
      "none.)\n").toList
  else
    "  (none after the ".toList ++ Text.ofNat from'.toNat ++
      " newest: this node's index holds ".toList ++ Text.ofNat page.totalCount.toNat ++
      " for this tag.)\n".toList

def recentMore (page : SearchPage) : Text :=
  match page.nextOffset with
  | some n =>
    "  more rows exist; the endpoint's next offset is ".toList ++ Text.ofNat n.toNat ++
      ", and `--from ".toList ++ Text.ofNat n.toNat ++ "` reads them\n".toList
  | none => []

/-- What is printed, given what each row touched the tag by. -/
def recentReport (tag : Tag) (shown : Text) (from' : UInt64) (page : SearchPage)
    (touched : List I128) : Report :=
  .ok (recentHead shown from' page ++ recentNone from' page ++
    (page.transactions.zip touched).flatMap (fun (tx, sum) => recentRow tag tx sum) ++
    recentMore page ++ "\n".toList ++ searchConvention ++ "\n".toList)

def recentTransactions (tag : Tag) (from' : UInt64) (page : SearchPage) : Option Report :=
  match destination tag with
  | .error e => some (cannotRender tag e)
  | .ok shown => do
    let touched ← page.transactions.mapM fun tx => I128.sum (touching tag tx)
    some (recentReport tag shown from' page touched)

/-! ## A block -/

def kindWord : Option BlockKind → Text
  | some .normal => "normal".toList
  | some .pseudo => "pseudo".toList
  | some .neogenesis => "neogenesis".toList
  | none => "kind not sent".toList

def haikuLine (haiku : Text) : Text :=
  let lines := (((Text.split '\n' haiku).map Text.trim).filter fun l => l ≠ []).map terminalText
  if lines = [] then [] else "  haiku    ".toList ++ " / ".toList.intercalate lines ++ "\n".toList

def blockFigures (block : MeshBlock) : Text :=
  let kind := block.kind
  match block.metadata with
  | none => "  type     ".toList ++ kindWord kind ++ "; this node sent no block metadata\n".toList
  | some m =>
    let what := match kind with
      | some .pseudo => "pseudo: no transactions, and no proof of work is checked for it".toList
      | some .neogenesis => "neogenesis: it carries the ledger, at every 256th block".toList
      | _ => "normal".toList
    "  type     ".toList ++ what ++ "\n  work     difficulty ".toList ++ Text.ofNat m.difficulty.toNat ++
      ", nonce ".toList ++ Hex.ofBytes m.nonce.1 ++ "\n  root     ".toList ++ Hex.ofBytes m.root.1 ++
      "\n  size     ".toList ++ Text.ofNat m.blockSize.toNat ++ " bytes, ".toList ++
      Text.ofNat m.txCount.toNat ++ " transaction(s) besides the reward, minimum fee ".toList ++
      nanoAndMcm (.ofU64 m.fee) ++ "\n".toList ++
      if kind = some .normal then haikuLine m.haiku else []

/-- A transaction that carries a reward. -/
def isReward (t : MeshTransaction) : Bool := t.operations.any fun o => o.kind = opReward

def rewardsOf (block : MeshBlock) : List MeshTransaction := block.transactions.filter isReward

def spendsOf (block : MeshBlock) : List MeshTransaction :=
  block.transactions.filter fun t => !isReward t

def movedOf (block : MeshBlock) : List I128 :=
  amountsOf opDestination ((spendsOf block).flatMap MeshTransaction.operations)

def feesOf (block : MeshBlock) : List I128 :=
  amountsOf opFee (block.transactions.flatMap MeshTransaction.operations)

def rewardLines (block : MeshBlock) : Text :=
  match (rewardsOf block).head?.bind fun t => t.operations.find? fun o => o.kind = opReward with
  | some r =>
    "  reward   ".toList ++ nanoAndMcm r.amount ++ "\n    to     ".toList ++
      explorerAddress r.address ++ "\n".toList
  | none => "  reward   none in this block\n".toList

/-- How many destinations a transaction has, and what is sent to them. -/
def sentLine (indent : Text) (id : Digest) (t : MeshTransaction) (sent : I128) : Text :=
  indent ++ Hex.ofBytes id.1 ++ "  ".toList ++
    Text.ofNat (amountsOf opDestination t.operations).length ++ " destination(s)  ".toList ++
    nanoAndMcm sent ++ "\n".toList

/-- What is printed, given what the block moved, its fees, and what each spend sent. -/
def blockReport (block : MeshBlock) (moved fees : I128) (sent : List I128) : Report :=
  .ok ("block ".toList ++ Text.ofNat block.block.index.toNat ++ "\n  hash     ".toList ++
    Hex.ofBytes block.block.hash.1 ++ "\n  parent   ".toList ++ Text.ofNat block.parent.index.toNat ++
    " (".toList ++ Hex.ofBytes block.parent.hash.1 ++ ")\n  at       ".toList ++
    stamp block.timestampMs ++ "\n".toList ++ blockFigures block ++ rewardLines block ++
    "  spends   ".toList ++ Text.ofNat (spendsOf block).length ++ "\n  moved    ".toList ++
    nanoAndMcm moved ++
    ("  (every destination of every non-reward transaction; the reward is newly minted, not moved, " ++
      "and is not counted)\n  fees     ").toList ++
    nanoAndMcm fees ++ "\n".toList ++
    ((spendsOf block).zip sent).flatMap (fun (t, sum) => sentLine "    ".toList t.hash t sum) ++
    "\n".toList ++ blockConvention ++ "\n".toList)

def blockPage (block : MeshBlock) : Option Report := do
  let moved ← I128.sum (movedOf block)
  let fees ← I128.sum (feesOf block)
  let sent ← (spendsOf block).mapM fun t => I128.sum (amountsOf opDestination t.operations)
  some (blockReport block moved fees sent)

/-! ## The queue -/

/-- A waiting transaction, as it was read, or none where it had left the queue. -/
structure MempoolRow where
  id : Digest
  transaction : Option MeshTransaction
  deriving DecidableEq

/-- What a row sends to its destinations, where it was read. -/
def rowSum (row : MempoolRow) : Option (Option I128) :=
  match row.transaction with
  | some t => some <$> I128.sum (amountsOf opDestination t.operations)
  | none => some none

def mempoolRow (row : MempoolRow) (sent : Option I128) : Text :=
  match row.transaction, sent with
  | some t, some sent => sentLine "  ".toList row.id t sent ++ operationLines t.operations "    ".toList
  | _, _ =>
    "  ".toList ++ Hex.ofBytes row.id.1 ++
      "  left the queue before it was read: mined since the list was read, or dropped\n".toList

/-- What is printed, given what each row sends. -/
def mempoolReport (count : UInt64) (total : ℕ) (rows : List MempoolRow) (sent : List (Option I128)) :
    Report :=
  .ok ("the mempool: ".toList ++ Text.ofNat total ++
    " transaction(s) waiting to be mined; the first ".toList ++ Text.ofNat rows.length ++
    " read\n".toList ++
    (if total = 0 then "  (none: this node's queue is empty.)\n".toList else []) ++
    (rows.zip sent).flatMap (fun (row, sum) => mempoolRow row sum) ++
    (if rows.length < total then
      "  ".toList ++ Text.ofNat (total - rows.length) ++
        " more waiting, not read: this page reads the first ".toList ++ Text.ofNat count.toNat ++
        ", and --count reads up to ".toList ++ Text.ofNat maxCount ++ "\n".toList
    else []) ++
    "\n".toList ++ mempoolConvention ++ "\n".toList)

def mempool (count : UInt64) (total : ℕ) (rows : List MempoolRow) : Option Report := do
  let sent ← rows.mapM rowSum
  some (mempoolReport count total rows sent)

end MochimoWallet.Cli
