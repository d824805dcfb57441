import MochimoWallet.Lib.Decimal

/-!
# JSON values

What a reader of JSON makes of a document. A number that is an integer of 64 bits is kept as one, and
any other as the text it is written as; the fields of an object are in the order of their names, each
name once.
-/

namespace Json

inductive Number where
  | posInt (n : UInt64)
  /-- An integer below zero. -/
  | negInt (n : Int64)
  | float (text : Text)
  deriving DecidableEq

namespace Number

def asU64 : Number → Option UInt64
  | posInt n => some n
  | negInt _ | float _ => none

def asI64 : Number → Option Int64
  | posInt n => if n.toNat < 2 ^ 63 then some (.ofNat n.toNat) else none
  | negInt n => some n
  | float _ => none

def display : Number → Text
  | posInt n => .ofNat n.toNat
  | negInt n => Text.ofInt n.toInt
  | float text => text

end Number

inductive Value where
  | null
  | bool (b : Bool)
  | number (n : Number)
  | string (s : Text)
  | array (items : List Value)
  | object (fields : List (Text × Value))

/-- The fields of an object. -/
abbrev Fields := List (Text × Value)

namespace Value

def asU64 : Value → Option UInt64
  | number n => n.asU64
  | _ => none

def asI64 : Value → Option Int64
  | number n => n.asI64
  | _ => none

def asBool : Value → Option Bool
  | bool b => some b
  | _ => none

def asStr : Value → Option Text
  | string s => some s
  | _ => none

def asArray : Value → Option (List Value)
  | array items => some items
  | _ => none

def asObject : Value → Option Fields
  | object fields => some fields
  | _ => none

end Value

/-- The value of a field, where the object has it. -/
def Fields.get (m : Fields) (key : Text) : Option Value := m.lookup key

end Json
