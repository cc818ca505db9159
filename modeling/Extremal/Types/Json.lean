import Mathlib.Algebra.Group.Nat.Defs

-- The JSON values of the configurations.
inductive Json
  | null
  | bool (b : Bool)
  | posInt (n : UInt64)
  | negInt (n : Int64)
  | float (x : Float)
  | string (s : String)
  | array (items : List Json)
  | object (fields : List (String × Json))

namespace Json

def get (json : Json) (key : String) : Option Json :=
  match json with
  | object fields => fields.lookup key
  | _             => none

def asU64 : Json → Option Nat
  | posInt n => some n.toNat
  | _        => none

def asBool : Json → Option Bool
  | bool b => some b
  | _      => none

def asI64 : Json → Option Int
  | posInt n => if n.toNat < 2 ^ 63 then some n.toNat else none
  | negInt n => some n.toInt
  | _        => none

def asF64 : Json → Option Float
  | posInt n => some n.toFloat
  | negInt n => some <| .ofModel <| .ofInt64 n
  | float x  => some x
  | _        => none

-- `json!` of a floating-point number.
def ofFloat (x : Float) : Json :=
  if x.isFinite then float x else null

-- The numbers that `serde_json` builds.
def WellFormed : Json → Prop
  | negInt n => n.toInt < 0
  | float x  => x.isFinite
  | _        => True

def isBoolean : Json → Bool
  | bool _ => true
  | _      => false

-- Sets a field of an object.
def insert (json : Json) (key : String) (value : Json) : Json :=
  match json with
  | object fields => object <| fields.filter (·.1 ≠ key) ++ [(key, value)]
  | _             => json

def getU64 (json : Json) (key : String) (default : Nat) : Nat :=
  json.get key |>.bind asU64 |>.getD default

def getBool (json : Json) (key : String) (default : Bool) : Bool :=
  json.get key |>.bind asBool |>.getD default

end Json

-- The `hex` crate. `decode` yields nothing for a string that is not a sequence of bytes in hex.
structure Hex where
  encode : List UInt8 → String
  decode : String → Option (List UInt8)

structure Hex.Lawful (hex : Hex) : Prop where
  decode_encode : ∀ bytes, hex.decode (hex.encode bytes) = some bytes
