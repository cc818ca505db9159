import Extremal.Graph.Graph6

-- The graph6 functions of the web pages. A string is the list of its UTF-16 code units.

namespace Browser

abbrev JsString := List UInt16

abbrev BoolMatrix := List (List Bool)

namespace JsString

def isHighSurrogate (unit : UInt16) : Bool :=
  0xD800 ≤ unit && unit ≤ 0xDBFF

def isLowSurrogate (unit : UInt16) : Bool :=
  0xDC00 ≤ unit && unit ≤ 0xDFFF

-- `[...s].map(c => c.charCodeAt(0))`: the first code unit of each code point.
def charCodes : JsString → List UInt16
  | high :: low :: rest =>
    if isHighSurrogate high && isLowSurrogate low then high :: charCodes rest
    else high :: charCodes (low :: rest)
  | s => s

-- The string with the given ASCII bytes.
def ofBytes (bytes : List UInt8) : JsString :=
  bytes.map (·.toUInt16)

end JsString

namespace BoolMatrix

def entry (matrix : BoolMatrix) (i j : Nat) : Bool :=
  (matrix.getD i []).getD j false

def setEntry (matrix : BoolMatrix) (i j : Nat) (value : Bool) : BoolMatrix :=
  matrix.modify i (·.set j value)

end BoolMatrix

open BoolMatrix

-- `((val >> (5 - k)) & 1) === 1` for `k = 0, ..., 5`. The shift keeps the sign.
def unpackCode (code : UInt16) : List Bool :=
  (List.range 6).map fun k => Int.shiftRight (code.toNat - 63) (5 - k) % 2 = 1

-- The body of the loop over the pairs, with the index of the pair.
def placeBit (bits : List Bool) (matrix : BoolMatrix) (p : (Nat × Nat) × Nat) : BoolMatrix :=
  if p.2 < bits.length && bits.getD p.2 false then
    matrix.setEntry p.1.1 p.1.2 true |>.setEntry p.1.2 p.1.1 true
  else matrix

def decodeGraph6 (s : JsString) : BoolMatrix :=
  match s.charCodes with
  | []            => []
  | first :: rest =>
    let n : Int := first.toNat - 63
    if n = 0 then []
    else
      let bits := rest.flatMap unpackCode
      let matrix := List.replicate n.toNat (List.replicate n.toNat false)
      (Graph6.columnPairs n.toNat).zipIdx.foldl (placeBit bits) matrix

-- The bits `i, ..., i + 5` as the number that a character adds to 63.
def packBits (bits : List Bool) (i : Nat) : Nat :=
  (List.range 6).foldl (fun val k => if bits.getD (i + k) false then val ||| 1 <<< (5 - k) else val) 0

def encodeGraph6 (matrix : BoolMatrix) : JsString :=
  let n := matrix.length
  if n = 0 ∨ n ≥ 63 then []
  else
    let bits := Graph6.pad <| (Graph6.columnPairs n).map fun p => matrix.entry p.1 p.2
    let groups := List.range' 0 ((bits.length + 5) / 6) 6
    .ofNat (n + 63) :: groups.map fun i => .ofNat (packBits bits i + 63)

def graph6VertexCount (g6 : JsString) : Option Nat :=
  match g6 with
  | []        => none
  | code :: _ => if code < 63 ∨ code > 126 then none else some (code.toNat - 63)

end Browser
