import Mathlib.Data.Nat.Digits.Defs
import Mathlib.Data.UInt
import Sunela.Lib.CString

/-! # Numbers in texts

Numbers are printed by the firmware itself, and read with `strtoull`. -/

namespace Sunela.Fmt

/-! ## Printing -/

/-- The digits of a number, of which there is at least one. -/
def digitsOf (v base : ℕ) : List ℕ := if v = 0 then [0] else (Nat.digits base v).reverse

/-- The character of a digit. -/
def digit (d : ℕ) : UInt8 := (asciiBytes "0123456789abcdef").getD d 0

/-- `print_number`: there are zeros in front of less than `len` digits. -/
def printNumber (v len base : ℕ) : Bytes :=
  (List.replicate (len - (digitsOf v base).length) 0 ++ digitsOf v base).map digit

/-! ## Reading -/

/-- What `isspace` accepts. -/
def isSpace (ch : UInt8) : Bool := decide (ch = 32) || (decide (9 ≤ ch) && decide (ch ≤ 13))

def isDigit (ch : UInt8) : Bool := decide (48 ≤ ch) && decide (ch ≤ 57)

/-- Whether there is a minus, and what follows the sign. -/
def sign : Bytes → Bool × Bytes
  | [] => (false, [])
  | ch :: s => if ch = 45 then (true, s) else if ch = 43 then (false, s) else (false, ch :: s)

/-- The value of decimal digits that follow those of `v`. -/
def valueOf (v : ℕ) (digits : Bytes) : ℕ := digits.foldl (fun v ch => v * 10 + (ch.toNat - 48)) v

/-- `strtoull` for decimal numbers: the number, and what `end` points to, which is the beginning
if there are no digits. -/
def strtoull (s : CString) : UInt64 × Bytes :=
  let (minus, t) := sign (s.bytes.dropWhile isSpace)
  let digits := t.takeWhile isDigit
  let v := valueOf 0 digits
  if digits = [] then (0, s.bytes)
  else
    (if 2 ^ 64 ≤ v then 2 ^ 64 - 1 else if minus then -UInt64.ofNat v else UInt64.ofNat v,
      t.dropWhile isDigit)

end Sunela.Fmt
