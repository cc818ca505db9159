import Extremal.Types.GraphCid

theorem GraphCid.toHex_inj {hex : Hex} (lawful : hex.Lawful) {cid₁ cid₂ : GraphCid} (h : cid₁.toHex hex = cid₂.toHex hex) :
    cid₁ = cid₂ := by
  have hb := congrArg hex.decode h
  rw [toHex, toHex, lawful.decode_encode, lawful.decode_encode, Option.some.injEq] at hb
  cases cid₁
  cases cid₂
  cases hb
  rfl

-- The hex strings with lower case letters. They show that the assumptions on `hex` can be met.
namespace ReferenceHex

def digits : List Char :=
  ['0', '1', '2', '3', '4', '5', '6', '7', '8', '9', 'a', 'b', 'c', 'd', 'e', 'f']

def encodeByte (b : UInt8) : List Char :=
  [digits.getD (b.toNat / 16) '0', digits.getD (b.toNat % 16) '0']

def decodeDigit (c : Char) : Option Nat :=
  digits.findIdx? (· == c.toLower)

def decodeChars : List Char → Option (List UInt8)
  | []             => some []
  | [_]            => none
  | hi :: lo :: cs => do
    let hi ← decodeDigit hi
    let lo ← decodeDigit lo
    let bytes ← decodeChars cs
    return UInt8.ofNat (16 * hi + lo) :: bytes

def hex : Hex where
  encode bytes := String.ofList <| bytes.flatMap encodeByte
  decode s     := decodeChars s.toList

theorem decodeDigit_getD : ∀ d < 16, decodeDigit (digits.getD d '0') = some d := by
  decide +kernel

theorem decodeChars_encode (bytes : List UInt8) : decodeChars (bytes.flatMap encodeByte) = some bytes := by
  induction bytes
  case nil => rfl
  case cons b bytes hi =>
    have hb := b.toNat_lt
    have hd : 16 * (b.toNat / 16) + b.toNat % 16 = b.toNat := by omega
    rw [List.flatMap_cons, encodeByte, List.cons_append, List.cons_append, List.nil_append, decodeChars]
    rw [decodeDigit_getD _ (by omega), decodeDigit_getD _ (by omega), hi]
    show some (UInt8.ofNat _ :: bytes) = _
    rw [hd, UInt8.ofNat_toNat]

theorem lawful : hex.Lawful where
  decode_encode bytes := by simp [hex, decodeChars_encode]

end ReferenceHex
