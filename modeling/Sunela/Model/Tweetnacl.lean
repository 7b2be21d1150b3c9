import Mathlib.Data.BitVec
import Mathlib.Logic.Function.Iterate
import Sunela.Lib.CString

/-! # Secret-key cryptography

Salsa20, Poly1305 and their combination, as `tweetnacl.c` has them. A pointer into a buffer is
what is left of the buffer, and a buffer reads as zero where it has ended. -/

namespace Sunela.Tweetnacl

/-- `u32` is `unsigned long`, which is wider on some machines. -/
abbrev U32 (w : ℕ) := BitVec w

variable {w : ℕ}

/-! ## Bytes and words -/

def ofU8 (b : UInt8) : U32 w := b.toBitVec.setWidth w

def toU8 (u : U32 w) : UInt8 := UInt8.ofBitVec (u.setWidth 8)

/-- Byte `i` of a buffer. -/
def byteAt (x : Bytes) (i : ℕ) : UInt8 := x.getD i 0

/-- `L32` -/
def l32 (x : U32 w) (c : ℕ) : U32 w := x <<< c ||| (x &&& 0xffffffff) >>> (32 - c)

def ld32 (x : Bytes) : U32 w :=
  let u := ofU8 (byteAt x 3)
  let u := u <<< 8 ||| ofU8 (byteAt x 2)
  let u := u <<< 8 ||| ofU8 (byteAt x 1)
  u <<< 8 ||| ofU8 (byteAt x 0)

def st32 (u : U32 w) : Bytes :=
  [toU8 u, toU8 (u >>> 8), toU8 (u >>> 8 >>> 8), toU8 (u >>> 8 >>> 8 >>> 8)]

/-- The result of `vn` for two buffers of `n` bytes. It is zero if they are the same. -/
def vn (w : ℕ) (x y : Bytes) (n : ℕ) : U32 w :=
  let d := (List.range n).foldl (fun d i => d ||| ofU8 (byteAt x i ^^^ byteAt y i)) (0 : U32 w)
  ((1 : U32 w) &&& (d - 1) >>> 8) - 1

def cryptoVerify16 (w : ℕ) (x y : Bytes) : U32 w := vn w x y 16

/-! ## Salsa20 -/

/-- What a round does to the words `t`. -/
def quarter (t0 t1 t2 t3 : U32 w) : List (U32 w) :=
  let t1 := t1 ^^^ l32 (t0 + t3) 7
  let t2 := t2 ^^^ l32 (t1 + t0) 9
  let t3 := t3 ^^^ l32 (t2 + t1) 13
  let t0 := t0 ^^^ l32 (t3 + t2) 18
  [t0, t1, t2, t3]

def wordAt (x : List (U32 w)) (i : ℕ) : U32 w := x.getD i 0

/-- The words `w` after a round. Word `m` of the quarter `j` comes to `4 * j + (j + m) % 4`. -/
def coreRound (x : List (U32 w)) : List (U32 w) :=
  (List.range 4).flatMap fun j =>
    (quarter (wordAt x (5 * j % 16)) (wordAt x ((5 * j + 4) % 16)) (wordAt x ((5 * j + 8) % 16))
      (wordAt x ((5 * j + 12) % 16))).rotateRight j

/-- The words that `core` starts with. -/
def coreInput (w : ℕ) (inp k c : Bytes) : List (U32 w) :=
  let four (x : Bytes) : List (U32 w) := (List.range 4).map fun i => ld32 (x.drop (4 * i))
  [ld32 c] ++ four k ++ [ld32 (c.drop 4)] ++ four inp ++ [ld32 (c.drop 8)] ++ four (k.drop 16) ++
    [ld32 (c.drop 12)]

def core (w : ℕ) (inp k c : Bytes) (h : Bool) : Bytes :=
  let y := coreInput w inp k c
  let x := coreRound^[20] y
  let sum := List.zipWith (· + ·) x y
  if h then
    ((List.range 4).flatMap fun i => st32 (wordAt sum (5 * i) - ld32 (c.drop (4 * i)))) ++
      (List.range 4).flatMap fun i => st32 (wordAt sum (6 + i) - ld32 (inp.drop (4 * i)))
  else sum.flatMap st32

def cryptoCoreSalsa20 (w : ℕ) (inp k c : Bytes) : Bytes := core w inp k c false

def cryptoCoreHsalsa20 (w : ℕ) (inp k c : Bytes) : Bytes := core w inp k c true

def sigma : Bytes := asciiBytes "expand 32-byte k"

/-! ## Streams -/

/-- The loop that counts the blocks in `z[8]` to `z[15]`. -/
def count (u : U32 w) : Bytes → Bytes
  | [] => []
  | z :: zs =>
      let u := u + ofU8 z
      toU8 u :: count (u >>> 8) zs

/-- The first `b` bytes of a message, or zeros, with those of a block. -/
def xorBytes (m : Option Bytes) (x : Bytes) (b : ℕ) : Bytes :=
  (List.range b).map fun i => (m.elim 0 (byteAt · i)) ^^^ byteAt x i

/-- The loop of `crypto_stream_salsa20_xor`. -/
def streamLoop (w : ℕ) (m : Option Bytes) (b : ℕ) (z k : Bytes) : Bytes :=
  let x := cryptoCoreSalsa20 w z k sigma
  if b ≥ 64 then
    xorBytes m x 64 ++ streamLoop w (m.map (List.drop 64)) (b - 64)
      (z.take 8 ++ count (1 : U32 w) (z.drop 8)) k
  else if b ≠ 0 then xorBytes m x b
  else []
termination_by b

def cryptoStreamSalsa20Xor (w : ℕ) (m : Option Bytes) (b : ℕ) (n k : Bytes) : Bytes :=
  streamLoop w m b ((List.range 8).map (byteAt n) ++ List.replicate 8 0) k

def cryptoStream (w d : ℕ) (n k : Bytes) : Bytes :=
  let s := cryptoCoreHsalsa20 w n k sigma
  cryptoStreamSalsa20Xor w none d (n.drop 16) s

def cryptoStreamXor (w : ℕ) (m : Bytes) (d : ℕ) (n k : Bytes) : Bytes :=
  let s := cryptoCoreHsalsa20 w n k sigma
  cryptoStreamSalsa20Xor w (some m) d (n.drop 16) s

/-! ## Poly1305 -/

/-- The loops that carry from each word to the next: the bytes, and what is left. -/
def carry (u : U32 w) : List (U32 w) → List (U32 w) × U32 w
  | [] => ([], u)
  | h :: hs =>
      let u := u + h
      let rest := carry (u >>> 8) hs
      ((u &&& 255) :: rest.1, rest.2)

def add1305 (h c : List (U32 w)) : List (U32 w) := (carry 0 (List.zipWith (· + ·) h c)).1

def minusp : List (U32 w) := [5, 0, 0, 0, 0, 0, 0, 0, 0, 0, 0, 0, 0, 0, 0, 0, 252]

/-- The first half of the key, where some bits are cleared. -/
def clampAt (j : ℕ) (r : U32 w) : U32 w :=
  if j = 3 ∨ j = 7 ∨ j = 11 ∨ j = 15 then r &&& 15
  else if j = 4 ∨ j = 8 ∨ j = 12 then r &&& 252
  else r

def keyWords (k : Bytes) : List (U32 w) :=
  ((List.range 16).map fun j => clampAt j (ofU8 (byteAt k j))) ++ [0]

/-- A block of at most 16 bytes, with a one behind it. -/
def blockWords (m : Bytes) : List (U32 w) :=
  let c := (m.take 16).map ofU8
  c ++ 1 :: List.replicate (16 - c.length) 0

def mul1305 (h r : List (U32 w)) : List (U32 w) :=
  (List.range 17).map fun i =>
    (List.range 17).foldl (fun (x : U32 w) j => x + wordAt h j *
      if j ≤ i then wordAt r (i - j) else (320 : U32 w) * wordAt r (i + 17 - j)) 0

/-- The words of a product, brought back to bytes. -/
def squeeze (x : List (U32 w)) : List (U32 w) :=
  let (h, u) := carry 0 (x.take 16)
  let u := u + wordAt x 16
  let h16 := u &&& 3
  let (h, u) := carry ((5 : U32 w) * (u >>> 2)) h
  h ++ [u + h16]

theorem length_drop_lt {m : Bytes} (h : ¬ m = []) : (m.drop 16).length < m.length := by
  have hpos := List.length_pos_iff.mpr h
  rw [List.length_drop]
  omega

/-- The loop over the blocks of the message. -/
def authLoop (r h : List (U32 w)) (m : Bytes) : List (U32 w) :=
  if m = [] then h
  else authLoop r (squeeze (mul1305 (add1305 h (blockWords m)) r)) (m.drop 16)
termination_by m.length
decreasing_by exact length_drop_lt ‹_›

/-- The words of `h`, or `g` if `h` has become negative. -/
def select (h g : List (U32 w)) : List (U32 w) :=
  let s := -(wordAt h 16 >>> 7)
  List.zipWith (fun h g => h ^^^ (s &&& (g ^^^ h))) h g

def cryptoOnetimeauth (w : ℕ) (m k : Bytes) : Bytes :=
  let g : List (U32 w) := authLoop (keyWords k) (List.replicate 17 0) m
  let h := select (add1305 g minusp) g
  let c := ((List.range 16).map fun j => ofU8 (byteAt k (j + 16))) ++ [0]
  ((add1305 h c).take 16).map toU8

def cryptoOnetimeauthVerify (w : ℕ) (h m k : Bytes) : U32 w :=
  cryptoVerify16 w h (cryptoOnetimeauth w m k)

/-! ## Boxes -/

/-- `crypto_secretbox`. Its result takes the place of the stream. -/
def cryptoSecretbox (w : ℕ) (m n k : Bytes) : Option Bytes :=
  if m.length < 32 then none
  else
    let c := cryptoStreamXor w m m.length n k
    some (List.replicate 16 0 ++ cryptoOnetimeauth w (c.drop 32) c ++ c.drop 32)

def cryptoSecretboxOpen (w : ℕ) (c n k : Bytes) : Option Bytes :=
  if c.length < 32 then none
  else if cryptoOnetimeauthVerify w (c.drop 16) (c.drop 32) (cryptoStream w 32 n k) ≠ 0 then none
  else some (List.replicate 32 0 ++ (cryptoStreamXor w c c.length n k).drop 32)

/-- `crypto_box_beforenm`, with the product of a secret and a public key as `crypto_scalarmult`
finds it. -/
def cryptoBoxBeforenm (w : ℕ) (cryptoScalarmult : (n p : Bytes) → Bytes) (y x : Bytes) : Bytes :=
  cryptoCoreHsalsa20 w (List.replicate 16 0) (cryptoScalarmult x y) sigma

end Sunela.Tweetnacl
