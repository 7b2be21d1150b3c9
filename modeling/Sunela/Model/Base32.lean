import Mathlib.Algebra.Group.Nat.Defs
import Mathlib.Data.Int.Notation
import Sunela.Lib.CString

/-! # Base32

Bytes are written as characters of 5 bits each, and the characters are padded to a multiple of
eight. -/

namespace Sunela.Base32

def alphabet : Bytes := asciiBytes "ABCDEFGHIJKLMNOPQRSTUVWXYZ234567"

def ignore : Bytes := asciiBytes "\r\n="

/-- The character of the last 5 bits of a number. -/
def symbol (n : ℕ) : UInt8 := alphabet.getD (n &&& 31) 0

def base32EncodeSize (size : ℕ) : ℕ := (size + 4) / 5 * 8 + 1

/-! ## Encoding -/

/-- The inner loop of `base32_encode`: the characters written, and the bits left. There is room
for `room` more characters, and no number of bits if that is too few. -/
def encodeSymbols (buf : ℕ) : ℕ → ℕ → Bytes × Option ℕ
  | 0, got => if 5 ≤ got then ([], none) else ([], some got)
  | room + 1, got =>
      if 5 ≤ got then
        let (out, left) := encodeSymbols buf room (got - 5)
        (symbol (buf >>> (got - 5)) :: out, left)
      else ([], some got)

/-- The outer loop, with what has been written so far: all characters, and the bits left of
`buf` unless there is no more room. Each round begins with less than 5 bits, so it takes a byte. -/
def encodeLoop (resSize : ℕ) : Bytes → ℕ → ℕ → Bytes → Bytes × Option (ℕ × ℕ)
  | [], buf, got, out => (out, some (buf, got))
  | b :: data, buf, got, out =>
      let buf := (buf <<< 8 ||| b.toNat) % 2 ^ 16
      match encodeSymbols buf (resSize - out.length) (got + 8) with
      | (more, none) => (out ++ more, none)
      | (more, some got) => encodeLoop resSize data buf got (out ++ more)

/-- The loop that pads `len` characters, and whether there is room for that. -/
def padLoop : ℕ → ℕ → Bytes × Bool
  | 0, len => ([], decide (len % 8 = 0))
  | room + 1, len =>
      if len % 8 = 0 then ([], true)
      else
        let (out, ok) := padLoop room (len + 1)
        (61 :: out, ok)

/-- `base32_encode`: the value returned, and what is written to `res`. -/
def base32Encode (resSize : ℕ) (data : Bytes) : ℤ × Bytes :=
  match encodeLoop resSize data 0 0 [] with
  | (out, none) => (-1, out)
  | (out, some (buf, got)) =>
      if out.length = resSize then (-1, out)
      else
        let out := if got = 0 then out else out ++ [symbol (buf <<< (5 - got))]
        let (pad, ok) := padLoop (resSize - out.length) out.length
        if !ok || (out ++ pad).length = resSize then (-1, out ++ pad)
        else ((out ++ pad).length, out ++ pad ++ [0])

/-! ## Decoding -/

/-- The loop of `base32_decode`, with the bytes decoded so far. There is no size if `res` is
NULL. -/
def decodeLoop (resSize : Option ℕ) : Bytes → ℕ → ℕ → Bytes → ℤ × Bytes
  | [], buf, got, out =>
      if got ≠ 0 ∧ buf &&& (2 ^ got - 1) ≠ 0 then (-1, out) else (out.length, out)
  | ch :: s, buf, got, out =>
      if ch ∈ ignore then decodeLoop resSize s buf got out
      else
        match alphabet.idxOf? ch with
        | none => (-1, out)
        | some c =>
            let buf := (buf <<< 5 ||| c) % 2 ^ 16
            let got := got + 5
            if 7 < got then
              if resSize = some out.length then (-1, out)
              else decodeLoop resSize s buf (got - 8) (out ++ [UInt8.ofNat (buf >>> (got - 8))])
            else decodeLoop resSize s buf got out

/-- `base32_decode`: the value returned, and what is written to `res`. -/
def base32Decode (resSize : ℕ) (s : CString) : ℤ × Bytes :=
  decodeLoop (some resSize) s.bytes 0 0 []

def base32DecodeSize (s : CString) : ℤ := (decodeLoop none s.bytes 0 0 []).1

end Sunela.Base32
