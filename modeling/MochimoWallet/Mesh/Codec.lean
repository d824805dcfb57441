import MochimoWallet.Basic
import MochimoWallet.Lib.Json
import MochimoWallet.Lib.Int128
import MochimoWallet.Lib.Result

/-!
# The explorer endpoints' replies

What `/block`, `/search/transactions` and `/mempool/transaction` send, parsed out of a JSON value by
hand: each field for its presence, type, width and range. The reader of the bytes is not this
program's, so it is a parameter, and nothing is asked of it. Rows are capped before they are copied
and an amount by its digits, which is what bounds every sum a page makes of them (`Bounded`).
-/

namespace MochimoWallet.Mesh

open Codec Json

/-- Why a reply is refused. -/
inductive ReplyError where
  | payloadTooLarge (what : String) (max got : ℕ)
  | hex (what : String) (offset : ℕ)
  | length (what : String) (expected got : ℕ)
  | mesh (code : UInt64) (retriable : Bool)
  | meshResponse (what : String)
  deriving DecidableEq

/-- The value, or a reply off its documented shape. -/
def okOr {α : Type} (what : String) : Option α → Except ReplyError α
  | some a => .ok a
  | none => .error (.meshResponse what)

/-! ## Hexadecimal fields -/

namespace Hex

def nibble (c : UInt8) : Option UInt8 :=
  if 48 ≤ c ∧ c ≤ 57 then some (c - 48)
  else if 97 ≤ c ∧ c ≤ 102 then some (c - 97 + 10)
  else if 65 ≤ c ∧ c ≤ 70 then some (c - 65 + 10)
  else none

/-- The pairs from number `i` on. -/
def decodePairs (what : String) : ℕ → Bytes → Except ReplyError Bytes
  | i, hi :: lo :: rest =>
    match nibble hi, nibble lo with
    | some hi, some lo => do
      let out ← decodePairs what (i + 1) rest
      .ok ((hi <<< 4 ||| lo) :: out)
    | none, _ => .error (.hex what (i * 2))
    | some _, none => .error (.hex what (i * 2 + 1))
  | _, _ => .ok []

def decode (s : Text) (what : String) : Except ReplyError Bytes :=
  let bytes := s.utf8
  if bytes.length % 2 ≠ 0 then .error (.hex what (bytes.length - 1)) else decodePairs what 0 bytes

def decodeExact (n : ℕ) (s : Text) (what : String) : Except ReplyError (Block n) := do
  let bytes ← decode s what
  if h : bytes.length = n then .ok ⟨bytes, h⟩ else .error (.length what n bytes.length)

def decodePrefixed (n : ℕ) (s : Text) (what : String) : Except ReplyError (Block n) :=
  match s.stripPrefix "0x".toList with
  | some rest => decodeExact n rest what
  | none => .error (.hex what 0)

end Hex

/-! ## Fields -/

abbrev maxHistoryResponseBytes : ℕ := 256 * 1024

/-- A body as an object; the middleware's own failures come as an object that says so. -/
def envelope (read : Bytes → Option Value) (bytes : Bytes) (cap : ℕ) : Except ReplyError Fields := do
  if cap < bytes.length then .error (.payloadTooLarge "response body" cap bytes.length)
  else
  let value ← okOr "json" (read bytes)
  let map ← okOr "object" value.asObject
  match (map.get "code".toList).bind Value.asU64, (map.get "message".toList).bind Value.asStr with
  | some code, some _ =>
    .error (.mesh code (((map.get "retriable".toList).bind Value.asBool).getD false))
  | _, _ => .ok map

def field (map : Fields) (key what : String) : Except ReplyError Value := okOr what (map.get key.toList)

def object (v : Value) (what : String) : Except ReplyError Fields := okOr what v.asObject

def unsigned (v : Value) (what : String) : Except ReplyError UInt64 := okOr what v.asU64

def string (v : Value) (what : String) : Except ReplyError Text := okOr what v.asStr

/-- A block the middleware names. -/
structure ChainTip where
  index : UInt64
  hash : Digest
  deriving DecidableEq

def tip (map : Fields) (key whatIndex whatHash : String) : Except ReplyError ChainTip := do
  let block ← object (← field map key whatIndex) whatIndex
  let index ← unsigned (← field block "index" whatIndex) whatIndex
  let hash ← Hex.decodePrefixed hashLen (← string (← field block "hash" whatHash) whatHash) whatHash
  .ok ⟨index, hash⟩

/-! ## Transactions -/

structure Operation where
  index : UInt64
  kind : Text
  address : Text
  amount : I128
  memo : Text
  deriving DecidableEq

def opReward : Text := "REWARD".toList
def opDestination : Text := "DESTINATION_TRANSFER".toList
def opSource : Text := "SOURCE_TRANSFER".toList
def opFee : Text := "FEE".toList

/-- The block and the time are of a search's rows alone. -/
structure MeshTransaction where
  hash : Digest
  block : Option ChainTip
  timestampMs : Option Int64
  operations : List Operation
  metadata : List (Text × Text)
  deriving DecidableEq

abbrev maxRows : ℕ := 4096

/-- The most digits of an amount. -/
abbrev maxDigits : ℕ := 30

/-- A decimal that may carry a minus sign: no plus sign and no spaces. -/
def signedDecimal (s : Text) (what : String) : Except ReplyError I128 :=
  let digits := (s.stripPrefix ['-']).getD s
  if digits = [] ∨ maxDigits < digits.byteLen ∨ ¬ digits.all Char.isDigit = true then
    .error (.meshResponse what)
  else okOr what (I128.parse s)

/-- A metadata value as it was sent; an object or an array is refused. -/
def metadataText (v : Value) (what : String) : Except ReplyError Text :=
  match v with
  | .string s => .ok s
  | .number n => .ok n.display
  | .bool b => .ok (if b then "true" else "false").toList
  | .null => .ok "null".toList
  | .array _ | .object _ => .error (.meshResponse what)

/-- A memo is where the metadata carries one, and is otherwise empty. -/
def parseMemo (op : Fields) : Except ReplyError Text :=
  match (op.get "metadata".toList).bind Value.asObject with
  | some m =>
    match m.get "memo".toList with
    | some v => string v "operations[].metadata.memo"
    | none => .ok []
  | none => .ok []

def parseAmount (op : Fields) : Except ReplyError I128 := do
  let amount ← object (← field op "amount" "operations[].amount") "operations[].amount"
  signedDecimal
    (← string (← field amount "value" "operations[].amount.value") "operations[].amount.value")
    "operations[].amount.value"

def parseOperation (op : Value) : Except ReplyError Operation := do
  let op ← object op "operations[]"
  let ident ← object (← field op "operation_identifier" "operations[].operation_identifier")
    "operations[].operation_identifier"
  let index ← unsigned (← field ident "index" "operations[].operation_identifier.index")
    "operations[].operation_identifier.index"
  let kind ← string (← field op "type" "operations[].type") "operations[].type"
  let account ← object (← field op "account" "operations[].account") "operations[].account"
  let address ← string (← field account "address" "operations[].account.address")
    "operations[].account.address"
  let amount ← parseAmount op
  let memo ← parseMemo op
  .ok ⟨index, kind, address, amount, memo⟩

/-- A list of rows, no longer than the cap. -/
def rows (v : Value) (whatArray whatMany : String) : Except ReplyError (List Value) := do
  let list ← okOr whatArray v.asArray
  if maxRows < list.length then .error (.meshResponse whatMany) else .ok list

def parseOperations (v : Value) : Except ReplyError (List Operation) := do
  (← rows v "operations: array" "operations: too many").mapM parseOperation

def parseMetadata (map : Fields) : Except ReplyError (List (Text × Text)) :=
  match map.get "metadata".toList with
  | some (.object m) => do
    let out ← m.mapM fun (k, v) => do .ok (k, ← metadataText v "metadata value")
    .ok (out.mergeSort fun a b => !decide (b.1 < a.1))
  | _ => .ok []

/-- The block and the time of a row, where the endpoint sends them. -/
def rowBlock (map : Fields) (withBlock : Bool) : Except ReplyError (Option ChainTip) :=
  if withBlock then
    some <$> tip map "block_identifier" "block_identifier.index" "block_identifier.hash"
  else .ok none

def rowTime (map : Fields) (withBlock : Bool) : Except ReplyError (Option Int64) :=
  if withBlock then do
    let v ← field map "timestamp" "timestamp"
    some <$> okOr "timestamp" v.asI64
  else .ok none

def parseTransaction (map : Fields) (withBlock : Bool) : Except ReplyError MeshTransaction := do
  let ident ← object (← field map "transaction_identifier" "transaction_identifier")
    "transaction_identifier"
  let hash ← Hex.decodePrefixed hashLen
    (← string (← field ident "hash" "transaction_identifier.hash") "transaction_identifier.hash")
    "transaction_identifier.hash"
  let block ← rowBlock map withBlock
  let timestampMs ← rowTime map withBlock
  let operations ← parseOperations (← field map "operations" "operations")
  let metadata ← parseMetadata map
  .ok ⟨hash, block, timestampMs, operations, metadata⟩

def parseTransactions (v : Value) (withBlock : Bool) : Except ReplyError (List MeshTransaction) := do
  (← rows v "transactions: array" "transactions: too many").mapM fun t => do
    parseTransaction (← object t "transactions[]") withBlock

/-! ## Blocks -/

/-- A block's own figures, from its trailer. -/
structure BlockMetadata where
  blockSize : UInt64
  difficulty : UInt32
  fee : UInt64
  haiku : Text
  nonce : Digest
  root : Digest
  stimeMs : Int64
  txCount : UInt32
  deriving DecidableEq

structure MeshBlock where
  block : ChainTip
  parent : ChainTip
  timestampMs : Int64
  transactions : List MeshTransaction
  metadata : Option BlockMetadata
  deriving DecidableEq

inductive BlockKind where
  | normal
  | pseudo
  | neogenesis
  deriving DecidableEq

/-- The kind by the block's number, and otherwise by its count of transactions where there is one. -/
def MeshBlock.kind (b : MeshBlock) : Option BlockKind :=
  if b.block.index &&& 0xff = 0 then some .neogenesis
  else b.metadata.map fun m => if m.txCount = 0 then .pseudo else .normal

def blockMetadataKeys : List String :=
  ["block_size", "difficulty", "fee", "haiku", "nonce", "root", "stime", "tx_count"]

abbrev maxHaikuBytes : ℕ := 256

/-- The value of a key that is there. -/
def keyed (m : Fields) (key : String) : Value := (m.get key.toList).getD .null

def narrow (m : Fields) (key what : String) : Except ReplyError UInt32 := do
  let n ← unsigned (keyed m key) what
  if n.toNat < 2 ^ 32 then .ok n.toUInt32 else .error (.meshResponse what)

/-- Read only where all eight keys are there. -/
def parseBlockMetadata (block : Fields) : Except ReplyError (Option BlockMetadata) :=
  match block.get "metadata".toList with
  | none | some .null => .ok none
  | some v => do
    let m ← object v "metadata"
    if blockMetadataKeys.any fun k => (m.get k.toList).isNone then .ok none
    else do
    let haiku ← string (keyed m "haiku") "metadata.haiku"
    if maxHaikuBytes < haiku.byteLen then .error (.meshResponse "metadata.haiku: too long")
    else do
    let blockSize ← unsigned (keyed m "block_size") "metadata.block_size"
    let difficulty ← narrow m "difficulty" "metadata.difficulty"
    let fee ← unsigned (keyed m "fee") "metadata.fee"
    let nonce ← Hex.decodePrefixed hashLen (← string (keyed m "nonce") "metadata.nonce")
      "metadata.nonce"
    let root ← Hex.decodePrefixed hashLen (← string (keyed m "root") "metadata.root") "metadata.root"
    let stimeMs ← okOr "metadata.stime" (keyed m "stime").asI64
    let txCount ← narrow m "tx_count" "metadata.tx_count"
    .ok (some ⟨blockSize, difficulty, fee, haiku, nonce, root, stimeMs, txCount⟩)

/-! ## Replies -/

section
variable (read : Bytes → Option Value)

def parseBlock (bytes : Bytes) : Except ReplyError MeshBlock := do
  let map ← envelope read bytes maxHistoryResponseBytes
  let block ← object (← field map "block" "block") "block"
  let identifier ← tip block "block_identifier" "block_identifier.index" "block_identifier.hash"
  let parent ← tip block "parent_block_identifier" "parent_block_identifier.index"
    "parent_block_identifier.hash"
  let timestampMs ← okOr "timestamp" (← field block "timestamp" "timestamp").asI64
  let transactions ← parseTransactions (← field block "transactions" "transactions") false
  let metadata ← parseBlockMetadata block
  .ok ⟨identifier, parent, timestampMs, transactions, metadata⟩

def parseBlockTransaction (bytes : Bytes) : Except ReplyError MeshTransaction := do
  let map ← envelope read bytes maxHistoryResponseBytes
  parseTransaction (← object (← field map "transaction" "transaction") "transaction") false

/-- A waiting transaction is sent as one of a block is. -/
def parseMempoolTransaction (bytes : Bytes) : Except ReplyError MeshTransaction :=
  parseBlockTransaction read bytes

structure SearchPage where
  transactions : List MeshTransaction
  totalCount : UInt64
  nextOffset : Option UInt64
  deriving DecidableEq

def parseNextOffset (map : Fields) : Except ReplyError (Option UInt64) :=
  match map.get "next_offset".toList with
  | none | some .null => .ok none
  | some v => some <$> unsigned v "next_offset"

def parseSearch (bytes : Bytes) : Except ReplyError SearchPage := do
  let map ← envelope read bytes maxHistoryResponseBytes
  let transactions ← parseTransactions (← field map "transactions" "transactions") true
  let totalCount ← unsigned (← field map "total_count" "total_count") "total_count"
  let nextOffset ← parseNextOffset map
  .ok ⟨transactions, totalCount, nextOffset⟩

end

/-! ## What is accepted -/

theorem okOr_eq_ok {α : Type} {what : String} {x : Option α} {a : α} :
    okOr what x = .ok a ↔ x = some a := by
  cases x with
  | none => exact iff_of_false (by simp [okOr]) (by simp)
  | some b => simp [okOr]

/-- The text of an operation's amount. -/
def amountText (op : Value) : Option Text := do
  let op ← op.asObject
  let amount ← op.get "amount".toList
  let amount ← amount.asObject
  let value ← amount.get "value".toList
  value.asStr

/-- An amount is what its text spells, and has no more digits than the cap. -/
structure Spells (s : Text) (a : I128) : Prop where
  value : Decimal.readInt s = some a.toInt
  lt : a.toInt.natAbs < 10 ^ maxDigits

theorem spells_of_signedDecimal {s : Text} {what : String} {a : I128}
    (h : signedDecimal s what = .ok a) : Spells s a := by
  have hsign : (s.stripPrefix ['-']).getD s = (Decimal.sign s).2 := by
    unfold Decimal.sign
    rcases s.stripPrefix ['-'] with _ | digits <;> rfl
  unfold signedDecimal at h
  rw [hsign] at h
  dsimp only at h
  split_ifs at h with hrefused
  push Not at hrefused
  obtain ⟨hne, hlen, hall⟩ := hrefused
  rw [List.all_eq_true] at hall
  have hdigits : Decimal.isDigits (Decimal.sign s).2 = true := Decimal.isDigits_iff.mpr ⟨hne, hall⟩
  have hbytes : (Decimal.sign s).2.length ≤ maxDigits := (Text.length_le_byteLen _).trans hlen
  have hlt : Decimal.value (Decimal.sign s).2 < 10 ^ maxDigits :=
    (Decimal.value_lt hall).trans_le (Nat.pow_le_pow_right (by decide) hbytes)
  obtain ⟨v, hparse, hread, habs⟩ := I128.parse_eq hdigits (hlt.trans (by decide))
  rw [hparse] at h
  cases h
  exact ⟨hread, habs ▸ hlt⟩

/-- The amount of an operation is what the field of its amount spells. -/
theorem spells_of_parseOperation {op : Value} {o : Operation} (h : parseOperation op = .ok o) :
    ∃ s, amountText op = some s ∧ Spells s o.amount := by
  simp only [parseOperation, bind_eq_ok] at h
  obtain ⟨m, hm, _, _, _, _, _, _, _, _, _, _, _, _, _, _, _, _, _, _, _, _, a, hamount, _, _, h⟩ := h
  cases h
  simp only [parseAmount, bind_eq_ok, field, object, string, okOr_eq_ok] at hm hamount
  obtain ⟨v, hv, fields, hfields, w, hw, s, hs, ha⟩ := hamount
  refine ⟨s, ?_, spells_of_signedDecimal ha⟩
  simp only [amountText, hm, hv, hfields, hw, hs, Option.bind_eq_bind, Option.bind_some]

/-- Few enough operations, of amounts short enough. -/
structure Bounded (t : MeshTransaction) : Prop where
  rows : t.operations.length ≤ maxRows
  digits : ∀ o ∈ t.operations, o.amount.toInt.natAbs < 10 ^ maxDigits

theorem rows_eq_ok {v : Value} {whatArray whatMany : String} {list : List Value}
    (h : rows v whatArray whatMany = .ok list) : list.length ≤ maxRows := by
  unfold rows at h
  obtain ⟨l, -, h⟩ := bind_eq_ok.mp h
  split_ifs at h with hmany
  cases h
  exact Nat.le_of_not_lt hmany

theorem bounded_of_parseTransaction {map : Fields} {withBlock : Bool} {t : MeshTransaction}
    (h : parseTransaction map withBlock = .ok t) : Bounded t := by
  simp only [parseTransaction, bind_eq_ok] at h
  obtain ⟨_, _, _, _, _, _, _, _, _, _, _, _, _, _, _, _, ops, hops, _, _, h⟩ := h
  cases h
  obtain ⟨list, hlist, hmap⟩ := bind_eq_ok.mp hops
  refine ⟨length_of_mapM hmap ▸ rows_eq_ok hlist, fun o ho => ?_⟩
  obtain ⟨op, -, hop⟩ := exists_of_mem_mapM hmap o ho
  obtain ⟨s, -, hspells⟩ := spells_of_parseOperation hop
  exact hspells.lt

theorem bounded_of_parseTransactions {v : Value} {withBlock : Bool} {ts : List MeshTransaction}
    (h : parseTransactions v withBlock = .ok ts) : ts.length ≤ maxRows ∧ ∀ t ∈ ts, Bounded t := by
  obtain ⟨list, hlist, hmap⟩ := bind_eq_ok.mp h
  refine ⟨length_of_mapM hmap ▸ rows_eq_ok hlist, fun t ht => ?_⟩
  obtain ⟨x, -, hx⟩ := exists_of_mem_mapM hmap t ht
  obtain ⟨m, -, hm⟩ := bind_eq_ok.mp hx
  exact bounded_of_parseTransaction hm

section
variable {read : Bytes → Option Value} {bytes : Bytes}

theorem bounded_of_parseBlock {b : MeshBlock} (h : parseBlock read bytes = .ok b) :
    b.transactions.length ≤ maxRows ∧ ∀ t ∈ b.transactions, Bounded t := by
  simp only [parseBlock, bind_eq_ok] at h
  obtain ⟨_, _, _, _, _, _, _, _, _, _, _, _, _, _, _, _, ts, hts, _, _, h⟩ := h
  cases h
  exact bounded_of_parseTransactions hts

theorem bounded_of_parseMempoolTransaction {t : MeshTransaction}
    (h : parseMempoolTransaction read bytes = .ok t) : Bounded t := by
  simp only [parseMempoolTransaction, parseBlockTransaction, bind_eq_ok] at h
  obtain ⟨_, _, _, _, _, _, h⟩ := h
  exact bounded_of_parseTransaction h

theorem bounded_of_parseSearch {page : SearchPage} (h : parseSearch read bytes = .ok page) :
    ∀ t ∈ page.transactions, Bounded t := by
  simp only [parseSearch, bind_eq_ok] at h
  obtain ⟨_, _, _, _, ts, hts, _, _, _, _, _, _, h⟩ := h
  cases h
  exact (bounded_of_parseTransactions hts).2

end

end MochimoWallet.Mesh
