import Mathlib.Algebra.Group.Nat.Defs
import Mathlib.Data.Int.Notation
import Mathlib.Data.Vector.Defs
import Sunela.Lib.CString

/-! # Mnemonic codes

Bytes are written as words of 11 bits, and the last word is filled up with the first bits of
a hash of the bytes. -/

namespace Sunela.Bip39

/-- A hash of 32 bytes. -/
abbrev Digest := Vector UInt8 32

def bip39WordBits : ℕ := 11

/-! ## Encoding -/

/-- `struct bip39enc`. The bytes from `p` to the end of the data are in `rest`. -/
structure Bip39Enc where
  pos : ℕ
  rest : Bytes
  sha : UInt8

def bip39Encode (sha256 : Bytes → Digest) (data : Bytes) : Bip39Enc :=
  { pos := 0, rest := data, sha := (sha256 data)[0] }

/-- The loop of `bip39_next_word`, which takes `got` bits so far from the bytes. It is undefined
to shift by a negative number. -/
def wordLoop (sha : UInt8) (pos buf got : ℕ) (rest : Bytes) : Option (ℕ × ℕ × Bytes) :=
  let left := 8 - pos % 8
  let want := bip39WordBits - got
  let mask := 2 ^ want - 1
  if got < bip39WordBits then
    match rest with
    | [] =>
        if 8 < want then none
        else some ((buf <<< want ||| sha.toNat >>> (8 - want)) % 2 ^ 16, pos, [])
    | b :: rest =>
        if want < left then
          some ((buf <<< want ||| ((b.toNat >>> (left - want)) &&& mask)) % 2 ^ 16, pos + want,
            b :: rest)
        else
          wordLoop sha (pos + left) ((buf <<< left ||| (b.toNat &&& mask)) % 2 ^ 16) (got + left)
            rest
  else some (buf, pos, rest)

/-- The next word, or none after the last. -/
def bip39NextWord (b : Bip39Enc) : Option (Option UInt16 × Bip39Enc) :=
  match b.rest with
  | [] => some (none, b)
  | _ :: _ => do
      let (buf, pos, rest) ← wordLoop b.sha b.pos 0 0 b.rest
      return (some (UInt16.ofNat (buf &&& (2 ^ bip39WordBits - 1))), { b with pos, rest })

/-- Repeated calls of `bip39_next_word`. -/
def nextWords (fuel : ℕ) (b : Bip39Enc) : Option (List UInt16) :=
  match fuel with
  | 0 => none
  | fuel + 1 => do
      match ← bip39NextWord b with
      | (none, _) => return []
      | (some n, b) => return n :: (← nextWords fuel b)

/-- All words of some bytes. Each takes at least one of them. -/
def encodeWords (sha256 : Bytes → Digest) (data : Bytes) : Option (List UInt16) :=
  nextWords (data.length + 1) (bip39Encode sha256 data)

/-! ## Decoding -/

def bip39DecodeUnrecognized : ℤ := -1

def bip39DecodeOverflow : ℤ := -2

def bip39DecodeChecksum : ℤ := -3

/-- The inner loop of `bip39_decode`: the bytes written, and the bits left. There is room for
`room` more bytes. -/
def drain (pending : ℕ) : ℕ → ℕ → Bytes × ℕ
  | 0, bits => ([], bits)
  | room + 1, bits =>
      if 8 ≤ bits then
        let (out, left) := drain pending room (bits - 8)
        (UInt8.ofNat (pending >>> (bits - 8)) :: out, left)
      else ([], bits)

/-- The outer loop, with the bytes written so far. -/
def decodeLoop (size : ℕ) : List UInt16 → ℕ → ℕ → Bytes → ℕ × ℕ × Bytes
  | [], pending, bits, buf => (pending, bits, buf)
  | w :: words, pending, bits, buf =>
      let pending := (pending <<< bip39WordBits ||| w.toNat) % 2 ^ 32
      let (out, left) := drain pending (size - buf.length) (bits + bip39WordBits)
      decodeLoop size words pending left (buf ++ out)

/-- `bip39_decode`: the value returned and the bytes written, unless an assertion fails. -/
def bip39Decode (sha256 : Bytes → Digest) (bytes : ℕ) (words : List UInt16) : Option (ℤ × Bytes) :=
  if words.length ∈ [12, 15, 18, 21, 24] then
    let cs := words.length / 3
    let ent := 10 * words.length + 2 * cs
    if bytes * 8 % 2 ^ 32 < ent then some (bip39DecodeOverflow, [])
    else
      let (pending, bits, buf) := decodeLoop (ent / 8) words 0 0 []
      if buf.length ≠ ent / 8 ∨ bits ≠ cs then none
      else if pending &&& (2 ^ cs - 1) = (sha256 buf)[0].toNat >>> (8 - cs) then
        some (buf.length, buf)
      else some (bip39DecodeChecksum, buf)
  else some (bip39DecodeUnrecognized, [])

/-! ## Input of mnemonic codes

Words are entered on ten keys, each of which stands for a set of letters. -/

def bip39Sets : List Bytes :=
  ["ab", "cd", "ef", "ghi", "jklm", "nop", "qr", "s", "tu", "vwxyz"].map asciiBytes

/-- `strchr`, which also finds the terminator. -/
def strchr (s : Bytes) (c : UInt8) : Bool := decide (c ∈ s) || decide (c = 0)

/-- The first set that has the letter. -/
def letterSet (c : UInt8) : Option ℕ := bip39Sets.findIdx? (strchr · c)

def keyChar (k : ℕ) : UInt8 := UInt8.ofNat (48 + k)

def isKey (t : UInt8) : Bool := decide (48 ≤ t) && decide (t ≤ 57)

/-! ## Matching -/

/-- The loop over the keys of the input: what is left of the word when all of them match. There
is no result if the assertion fails. -/
def matchKeys : Bytes → Bytes → Option (Option Bytes)
  | [], w => some (some w)
  | t :: s, w =>
      if !isKey t then none
      else
        match w with
        | [] => some none
        | c :: w => if strchr (bip39Sets.getD (t.toNat - 48) []) c then matchKeys s w else some none

/-- The loop over the words from number `i` on: each match, and what is left of the word. -/
def matchWords (s : CString) : ℕ → List CString → Option (List (ℕ × Bytes))
  | _, [] => some []
  | i, w :: words => do
      match ← matchKeys s.bytes w.bytes with
      | none => matchWords s (i + 1) words
      | some rest => return (i, rest) :: (← matchWords s (i + 1) words)

/-- `next_set` -/
def nextSet (found : List (ℕ × Bytes)) (k : ℕ) : Bool :=
  found.any fun m => m.2.head?.bind letterSet = some k

def nextKeys (found : List (ℕ × Bytes)) : Bytes :=
  ((List.range 10).filter (nextSet found)).map keyChar

/-- `bip39_match`: what it leaves in `bip39_matches`, and in `next` unless that is NULL. -/
def bip39Match (words : List CString) (s : CString) (nextSize : Option ℕ) :
    Option (List ℕ × Option Bytes) := do
  let found ← matchWords s 0 words
  match nextSize with
  | none => return (found.map Prod.fst, none)
  | some size =>
      if (nextKeys found).length + 1 ≤ size then
        return (found.map Prod.fst, some (nextKeys found))
      else none

/-! ## Conversion -/

/-- The loop of `bip39_word_to_sets`. There is no result if it returns -1. -/
def setsLoop : Bytes → ℕ → Option Bytes
  | [], _ => some []
  | _ :: _, 0 => some []
  | c :: s, room + 1 => do return keyChar (← letterSet c) :: (← setsLoop s room)

def bip39WordToSets (s : CString) (maxLen : ℕ) : Option Bytes := setsLoop s.bytes maxLen

end Sunela.Bip39
