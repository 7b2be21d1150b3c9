import Mathlib.Algebra.Group.Int.Defs
import Mathlib.Data.Int.Notation
import Mathlib.Data.List.DropRight
import Sunela.Model.Field

/-! # The encoder of account lists

Accounts written as JSON are encoded on the host. A Python string is a sequence of code
points, and its length counts these and not its bytes. -/

namespace Sunela.Accenc

open Fields

abbrev Str := List Char

/-- `s.encode()` -/
def utf8 (s : Str) : Bytes := s.flatMap String.utf8EncodeChar

/-- The sequence is the same as in `enum field_type`. -/
inductive Key where
  | id
  | prev
  | user
  | email
  | pw
  | hotpSecret
  | hotpCounter
  | totpSecret
  | comment
  | pw2
  | dir
  deriving DecidableEq

def keys : List Key :=
  [.id, .prev, .user, .email, .pw, .hotpSecret, .hotpCounter, .totpSecret, .comment, .pw2, .dir]

/-- The values that `encode` takes for some key. Numbers are cut to integers. -/
inductive Json where
  | str (s : Str)
  | num (n : ℤ)
  | list (l : List Str)
  deriving DecidableEq

/-! ## Numbers and secrets -/

def isSpace (c : Char) : Bool :=
  c = ' ' ∨ (9 ≤ c.toNat ∧ c.toNat ≤ 13) ∨ (28 ≤ c.toNat ∧ c.toNat ≤ 31)

def strip (s : Str) : Str := (s.dropWhile isSpace).rdropWhile isSpace

/-- The digits that follow the first ones, which make the number `n`. An underscore has to
stand between two digits. -/
def moreDigits (n : ℕ) : Str → Option ℕ
  | [] => some n
  | '_' :: d :: rest => if d.isDigit then moreDigits (10 * n + (d.toNat - 48)) rest else none
  | d :: rest => if d.isDigit then moreDigits (10 * n + (d.toNat - 48)) rest else none

def digits : Str → Option ℕ
  | [] => none
  | d :: rest => if d.isDigit then moreDigits (d.toNat - 48) rest else none

/-- `int(v)` -/
def int : Json → Option ℤ
  | .num n => some n
  | .str s =>
      match strip s with
      | '+' :: s => (digits s).map Int.ofNat
      | '-' :: s => (digits s).map Int.negOfNat
      | s => (digits s).map Int.ofNat
  | .list _ => none

def b32digit (c : Char) : Option ℕ :=
  if 'A' ≤ c ∧ c ≤ 'Z' then some (c.toNat - 65)
  else if '2' ≤ c ∧ c ≤ '7' then some (c.toNat - 24)
  else none

/-- The `k` low bytes of a number, the highest first. -/
def bigEndian (k n : ℕ) : Bytes := ((List.range k).map fun i => UInt8.ofNat (n >>> (8 * i))).reverse

/-- The `k` low bytes of a number, the lowest first. -/
def littleEndian (k n : ℕ) : Bytes := (List.range k).map fun i => UInt8.ofNat (n >>> (8 * i))

/-- `base64.b32decode` -/
def b32decode (s : Str) : Option Bytes := do
  let quanta := s.rdropWhile (· = '=')
  let padchars := s.length - quanta.length
  if s.length % 8 ≠ 0 ∨ padchars ∉ [0, 1, 3, 4, 6] then none
  else
    let ds ← quanta.mapM b32digit
    let bits := 5 * ds.length
    return bigEndian (bits / 8) (ds.foldl (fun acc d => 32 * acc + d) 0 >>> (bits % 8))

/-! ## Encoding -/

/-- `struct.pack("BB", code, len)` fails unless the numbers are bytes. -/
def packBB (code len : ℕ) : Option Bytes :=
  if code < 256 ∧ len < 256 then some [UInt8.ofNat code, UInt8.ofNat len] else none

/-- The part of `encode` that all texts have in common. -/
def encodeText (code : ℕ) (s : Str) : Option Bytes := (packBB code s.length).map (· ++ utf8 s)

/-- The part of `encode` for secrets. -/
def encodeSecret (code : ℕ) (s : Str) : Option Bytes := do
  let s ← b32decode s
  let head ← packBB code s.length
  return head ++ s

/-- Nothing if an exception is raised. -/
def encode : Key → ℕ → Json → Option Bytes
  | .id, code, .list l => encodeText code (['\x00'].intercalate l)
  | .id, code, .str s => encodeText code s
  | .prev, code, .str s => encodeText code s
  | .dir, code, .str s => encodeText code s
  | .user, code, .str s => encodeText code s
  | .email, code, .str s => encodeText code s
  | .pw, code, .str s => encodeText code s
  | .pw2, code, .str s => encodeText code s
  | .comment, code, .str s => encodeText code s
  | .hotpSecret, code, .str s => encodeSecret code s
  | .totpSecret, code, .str s => encodeSecret code s
  | .hotpCounter, code, v => do
      let n ← int v
      if n < 0 ∨ 2 ^ 64 ≤ n then none
      else
        let head ← packBB code 8
        return head ++ littleEndian 8 n.toNat
  | _, _, _ => none

/-- An entry of the list, which has an identifier. -/
structure Account where
  value : Key → Option Json
  named : (value .id).isSome

/-- The loop over the keys, which are numbered from `i` on. -/
def encodeKeys (value : Key → Option Json) (i : ℕ) : List Key → Option Bytes
  | [] => some []
  | key :: rest => do
      let b ← match value key with
        | some v => encode key i v
        | none => some []
      let more ← encodeKeys value (i + 1) rest
      return b ++ more

/-- The record of an entry, without the zeros that fill its block. -/
def Account.record (e : Account) : Option Bytes := encodeKeys e.value 1 keys

end Sunela.Accenc
