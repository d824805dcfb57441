import MochimoWallet.Lib.Hex
import MochimoWallet.Mesh.Codec
import MochimoWallet.Recon.Resubmit

/-!
# What a node is asked

A question is a path and a body, posted as it is serialised; the reply is a body, or a failure of
whatever carries it. The client asks one question a call and reads the reply with that question's
parser. The wallet's own questions are the ones `Node` answers; the explorer's commands ask the rest.
-/

namespace MochimoWallet.Mesh

open Codec Json

/-! ## Hexadecimal -/

namespace Hex

theorem nibble_char : ∀ d < 16, nibble (.ofNat (Hex.char d).toNat) = some (.ofNat d) := by decide

/-- A byte is its two halves. -/
theorem join_halves (x : UInt8) :
    (UInt8.ofNat (x.toNat / 16) <<< 4 ||| UInt8.ofNat (x.toNat % 16)) = x := by
  have h : ∀ i : Fin 256,
      UInt8.ofNat (i.val / 16) <<< 4 ||| UInt8.ofNat (i.val % 16) = UInt8.ofNat i.val := by
    decide +kernel
  exact (h ⟨x.toNat, x.toNat_lt⟩).trans UInt8.ofNat_toNat

/-- What is written in hexadecimal is read back. -/
theorem decode_ofBytes (b : Bytes) (what : String) : decode (Hex.ofBytes b) what = .ok b := by
  have hascii : (Hex.ofBytes b).isAscii = true := List.all_eq_true.mpr fun c hc =>
    decide_eq_true (Hex.isDigit_ascii (Hex.isDigit_of_mem_ofBytes c hc))
  have hpairs : ∀ (b : Bytes) i, decodePairs what i
      ((Hex.ofBytes b).map fun c => .ofNat c.toNat) = .ok b := by
    intro b
    induction b with
    | nil => exact fun i => rfl
    | cons x b ih =>
      intro i
      have hhi : x.toNat / 16 < 16 := by
        have hx := x.toNat_lt
        omega
      have hlo : x.toNat % 16 < 16 := Nat.mod_lt _ (by decide)
      have hcons : Hex.ofBytes (x :: b) =
          Hex.char (x.toNat / 16) :: Hex.char (x.toNat % 16) :: Hex.ofBytes b := rfl
      rw [hcons, List.map_cons, List.map_cons, decodePairs, nibble_char _ hhi, nibble_char _ hlo]
      dsimp only
      rw [ih, ok_bind, join_halves]
  unfold decode
  rw [Text.utf8_ascii hascii]
  dsimp only
  rw [List.length_map, Hex.length_ofBytes, if_neg (by omega), hpairs]

end Hex

/-! ## Requests -/

/-- A string that needs no escape, as JSON. -/
def stringText (t : Text) : Text := '"' :: t ++ ['"']

/-- An object as JSON, its fields in the order they are given. -/
def objectText (fields : List (String × Text)) : Text :=
  "\x7b".toList ++ [','].intercalate (fields.map fun (k, v) => stringText k.toList ++ ':' :: v) ++
    "\x7d".toList

def networkBlockchain : Text := "mochimo".toList
def networkName : Text := "mainnet".toList
def tagResolveMethod : Text := "tag_resolve".toList

def networkIdentifier : Text :=
  objectText [("blockchain", stringText networkBlockchain), ("network", stringText networkName)]

def prefixed (b : Bytes) : Text := stringText ("0x".toList ++ Hex.ofBytes b)

/-- The questions of the client. -/
inductive Query where
  | networkList
  | networkOptions
  | networkStatus
  | tagResolve (tag : Tag)
  | accountBalance (tag : Tag)
  | submit (wire : Bytes)
  | blockByIndex (index : UInt64)
  | blockByHash (hash : Block hashLen)
  | searchByHash (hash : Block hashLen)
  | searchByAccount (tag : Tag) (limit : UInt64)
  | searchByAccountFrom (tag : Tag) (limit offset : UInt64)
  | mempool
  | mempoolTransaction (id : Digest)
  deriving DecidableEq

namespace Query

def path : Query → Text
  | networkList => "/network/list".toList
  | networkOptions => "/network/options".toList
  | networkStatus => "/network/status".toList
  | tagResolve _ => "/call".toList
  | accountBalance _ => "/account/balance".toList
  | submit _ => "/construction/submit".toList
  | blockByIndex _ | blockByHash _ => "/block".toList
  | searchByHash _ | searchByAccount .. | searchByAccountFrom .. => "/search/transactions".toList
  | mempool => "/mempool".toList
  | mempoolTransaction _ => "/mempool/transaction".toList

def number (n : UInt64) : Text := .ofNat n.toNat

/-- The body, its keys sorted as the serialiser sorts them. -/
def body : Query → Text
  | networkList | networkOptions | networkStatus | mempool =>
    objectText [("network_identifier", networkIdentifier)]
  | tagResolve tag => objectText [("method", stringText tagResolveMethod),
      ("network_identifier", networkIdentifier), ("parameters", objectText [("tag", prefixed tag.1)])]
  | accountBalance tag => objectText [("account_identifier", objectText [("address", prefixed tag.1)]),
      ("network_identifier", networkIdentifier)]
  | submit wire => objectText [("network_identifier", networkIdentifier),
      ("signed_transaction", stringText (Hex.ofBytes wire))]
  | blockByIndex index => objectText [("block_identifier", objectText [("index", number index)]),
      ("network_identifier", networkIdentifier)]
  | blockByHash hash => objectText [("block_identifier", objectText [("hash", prefixed hash.1)]),
      ("network_identifier", networkIdentifier)]
  | searchByHash hash => objectText [("network_identifier", networkIdentifier),
      ("transaction_identifier", objectText [("hash", prefixed hash.1)])]
  | searchByAccount tag limit => objectText
      [("account_identifier", objectText [("address", prefixed tag.1)]), ("limit", number limit),
        ("network_identifier", networkIdentifier)]
  | searchByAccountFrom tag limit offset => objectText
      [("account_identifier", objectText [("address", prefixed tag.1)]), ("limit", number limit),
        ("network_identifier", networkIdentifier), ("offset", number offset)]
  | mempoolTransaction id => objectText [("network_identifier", networkIdentifier),
      ("transaction_identifier", objectText [("hash", prefixed id.1)])]

end Query

/-! ## Replies -/

abbrev maxReconResponseBytes : ℕ := 8 * 1024

structure BalanceAt where
  balance : UInt64
  tip : ChainTip
  deriving DecidableEq

def currencySymbol : Text := "MCM".toList
abbrev currencyDecimals : UInt64 := 9

/-- A decimal string of one to twenty digits, and no sign. -/
def decimal (s : Text) (what : String) : Except ReplyError UInt64 :=
  if s = [] ∨ 20 < s.byteLen ∨ ¬ s.all (fun c => '0' ≤ c && c ≤ '9') then .error (.meshResponse what)
  else okOr what (Text.parseU64 s)

section
variable (read : Bytes → Option Value)

def parseNetworkStatus (bytes : Bytes) : Except ReplyError ChainTip := do
  let map ← envelope read bytes maxReconResponseBytes
  tip map "current_block_identifier" "current_block_identifier.index" "current_block_identifier.hash"

def parseTagResolve (bytes : Bytes) (tag : Tag) : Except ReplyError LedgerEntry := do
  let map ← envelope read bytes maxReconResponseBytes
  let result ← object (← field map "result" "result") "result"
  let address ← Hex.decodePrefixed addrLen
    (← string (← field result "address" "result.address") "result.address") "result.address"
  if tagOf address ≠ tag then
    .error (.meshResponse "result.address: does not begin with the tag resolved")
  else
  let balance ← unsigned (← field result "amount" "result.amount: unsigned integer")
    "result.amount: unsigned integer"
  .ok ⟨address, balance⟩

def parseAccountBalance (bytes : Bytes) : Except ReplyError BalanceAt := do
  let map ← envelope read bytes maxReconResponseBytes
  let tip ← tip map "block_identifier" "block_identifier.index" "block_identifier.hash"
  let balances ← okOr "balances: array" (← field map "balances" "balances").asArray
  let first ← object (← okOr "balances[0]" balances.head?) "balances[0]"
  let balance ← decimal (← string (← field first "value" "balances[0].value") "balances[0].value")
    "balances[0].value: decimal"
  let currency ← object (← field first "currency" "balances[0].currency") "balances[0].currency"
  let symbol ← string (← field currency "symbol" "balances[0].currency.symbol")
    "balances[0].currency.symbol"
  if symbol ≠ currencySymbol then .error (.meshResponse "balances[0].currency.symbol: not MCM")
  else
  let decimals ← unsigned (← field currency "decimals" "balances[0].currency.decimals")
    "balances[0].currency.decimals"
  if decimals ≠ currencyDecimals then .error (.meshResponse "balances[0].currency.decimals: not 9")
  else .ok ⟨balance, tip⟩

/-- One id of the queue. -/
def parseIdentifier (entry : Value) : Except ReplyError Digest := do
  let entry ← object entry "transaction_identifiers[]"
  Hex.decodePrefixed hashLen
    (← string (← field entry "hash" "transaction_identifiers[].hash") "transaction_identifiers[].hash")
    "transaction_identifiers[].hash"

/-- The queue's ids, in the queue's order; an empty queue is sent as `null`. -/
def parseMempool (bytes : Bytes) : Except ReplyError (List Digest) := do
  let map ← envelope read bytes maxHistoryResponseBytes
  match ← field map "transaction_identifiers" "transaction_identifiers" with
  | .null => .ok []
  | .array list =>
    if maxRows < list.length then .error (.meshResponse "transaction_identifiers: too many")
    else list.mapM parseIdentifier
  | _ => .error (.meshResponse "transaction_identifiers: array")

end

/-! ## The client -/

/-- Why a question has no answer. -/
inductive QueryError where
  /-- The reply did not come. -/
  | transport (cause : Error)
  | reply (cause : ReplyError)
  deriving DecidableEq

/-- The replies to come, and what was posted, the newest first. -/
structure Transport where
  replies : List (Except Error Bytes)
  asked : List Query

/-- Post a question. -/
def post (q : Query) : Call Transport QueryError Bytes := fun x =>
  match x.replies with
  | [] => (.err (.transport Node.silence), ⟨[], q :: x.asked⟩)
  | .error e :: replies => (.err (.transport e), ⟨replies, q :: x.asked⟩)
  | .ok bytes :: replies => (.ok bytes, ⟨replies, q :: x.asked⟩)

/-- Ask, and read the reply. -/
def ask {α : Type} (q : Query) (parse : Bytes → Except ReplyError α) : Call Transport QueryError α := do
  let reply ← post q
  Call.check ((parse reply).mapError .reply)

section
variable (read : Bytes → Option Value)

def networkStatus : Call Transport QueryError ChainTip := ask .networkStatus (parseNetworkStatus read)

def resolveTag (tag : Tag) : Call Transport QueryError LedgerEntry :=
  ask (.tagResolve tag) (parseTagResolve read · tag)

def balance (tag : Tag) : Call Transport QueryError BalanceAt :=
  ask (.accountBalance tag) (parseAccountBalance read)

def blockByIndex (index : UInt64) : Call Transport QueryError MeshBlock :=
  ask (.blockByIndex index) (parseBlock read)

def blockByHash (hash : Block hashLen) : Call Transport QueryError MeshBlock :=
  ask (.blockByHash hash) (parseBlock read)

def searchByHash (hash : Block hashLen) : Call Transport QueryError SearchPage :=
  ask (.searchByHash hash) (parseSearch read)

def searchByAccount (tag : Tag) (limit : UInt64) : Call Transport QueryError SearchPage :=
  ask (.searchByAccount tag limit) (parseSearch read)

def searchByAccountFrom (tag : Tag) (limit offset : UInt64) : Call Transport QueryError SearchPage :=
  ask (.searchByAccountFrom tag limit offset) (parseSearch read)

def mempool : Call Transport QueryError (List Digest) := ask .mempool (parseMempool read)

def mempoolTransaction (id : Digest) : Call Transport QueryError MeshTransaction :=
  ask (.mempoolTransaction id) (parseMempoolTransaction read)

end

/-! ## What an asking does -/

section
variable {α : Type} {q : Query} {parse : Bytes → Except ReplyError α} {x : Transport}

/-- What comes of a question put to the next reply. -/
def answerTo (parse : Bytes → Except ReplyError α) : List (Except Error Bytes) → Except QueryError α
  | [] => .error (.transport Node.silence)
  | .error e :: _ => .error (.transport e)
  | .ok bytes :: _ => (parse bytes).mapError .reply

/-- A question is posted once, and takes one reply. -/
theorem ask_eq : ask q parse x = (.ofExcept (answerTo parse x.replies), ⟨x.replies.tail, q :: x.asked⟩) := by
  obtain ⟨_ | ⟨e | bytes, replies⟩, asked⟩ := x
  · rfl
  · rfl
  · have hpost : post q ⟨.ok bytes :: replies, asked⟩ = (.ok bytes, ⟨replies, q :: asked⟩) := rfl
    have hanswer : answerTo parse (.ok bytes :: replies) = (parse bytes).mapError .reply := rfl
    rw [ask, Call.bind_of_ok hpost, hanswer]
    cases parse bytes <;> rfl

end

/-! ## Calls that always end -/

/-- A call that always returns or refuses. -/
abbrev Alive {σ ε α : Type} (x : Call σ ε α) : Prop := Call.Quiet (fun _ => ()) x

section
variable {σ ε δ α : Type}

theorem alive_ask {q : Query} {parse : Bytes → Except ReplyError α} : Alive (ask q parse) := by
  refine ⟨fun h => ⟨rfl, ?_⟩⟩
  rw [ask_eq] at h
  obtain ⟨rfl, -⟩ := Prod.mk.inj h
  cases answerTo parse _ <;> simp [Reply.ofExcept]

theorem Alive.mapErr {f : ε → δ} {x : Call σ ε α} (hx : Alive x) :
    Alive (Call.mapErr f x) := by
  refine ⟨fun h => ⟨rfl, ?_⟩⟩
  obtain ⟨r, hcall, rfl⟩ := Call.mapErr_cases h
  rcases r with a | e | _
  · simp [Reply.mapErr]
  · simp [Reply.mapErr]
  · exact absurd rfl (hx.keeps hcall).2

theorem Alive.attempt {x : Call σ δ α} (hx : Alive x) :
    Alive (Call.attempt (ε := ε) x) := by
  refine ⟨fun h => ⟨rfl, ?_⟩⟩
  rcases Call.attempt_cases h with ⟨found, rfl, -⟩ | ⟨-, hcall⟩
  · simp
  · exact absurd rfl (hx.keeps hcall).2

end

end MochimoWallet.Mesh
