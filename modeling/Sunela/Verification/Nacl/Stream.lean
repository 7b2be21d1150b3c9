import Sunela.Verification.Nacl.Poly1305

/-! # Streams are those of XSalsa20

Two rounds of `core` are a double round of Salsa20, whatever the width of the words, and the blocks
of a stream are counted. -/

namespace Sunela.Tweetnacl

variable {w : ℕ}

/-! ## Salsa20 -/

/-- The quarter round of Salsa20. -/
def quarterRound (a b c d : U32 32) : List (U32 32) :=
  let b := b ^^^ (a + d).rotateLeft 7
  let c := c ^^^ (b + a).rotateLeft 9
  let d := d ^^^ (c + b).rotateLeft 13
  let a := a ^^^ (d + c).rotateLeft 18
  [a, b, c, d]

/-- The words at some positions. -/
def pick (x : List (U32 w)) (positions : List ℕ) : List (U32 w) := positions.map (wordAt x)

/-- Quarter rounds of four words each. -/
def quarters (x : List (U32 32)) (a b c d : ℕ) : List (U32 32) :=
  quarterRound (wordAt x a) (wordAt x b) (wordAt x c) (wordAt x d)

/-- Each column of the matrix of words, from its diagonal element down. -/
def columnRound (x : List (U32 32)) : List (U32 32) :=
  pick (quarters x 0 4 8 12 ++ quarters x 5 9 13 1 ++ quarters x 10 14 2 6 ++ quarters x 15 3 7 11)
    [0, 7, 10, 13, 1, 4, 11, 14, 2, 5, 8, 15, 3, 6, 9, 12]

/-- Each row, from its diagonal element on. -/
def rowRound (x : List (U32 32)) : List (U32 32) :=
  pick (quarters x 0 1 2 3 ++ quarters x 5 6 7 4 ++ quarters x 10 11 8 9 ++ quarters x 15 12 13 14)
    [0, 1, 2, 3, 7, 4, 5, 6, 10, 11, 8, 9, 13, 14, 15, 12]

def doubleRound (x : List (U32 32)) : List (U32 32) := rowRound (columnRound x)

theorem l32_rotateLeft (x : U32 32) {c : ℕ} (hc : c < 32) : l32 x c = x.rotateLeft c := by
  have hmask : x &&& 0xffffffff = x := BitVec.and_allOnes
  rw [l32, hmask, BitVec.rotateLeft_def, Nat.mod_eq_of_lt hc]

theorem quarter_eq (a b c d : U32 32) : quarter a b c d = quarterRound a b c d := by
  simp only [quarter, quarterRound, l32_rotateLeft _ (show 7 < 32 by decide),
    l32_rotateLeft _ (show 9 < 32 by decide), l32_rotateLeft _ (show 13 < 32 by decide),
    l32_rotateLeft _ (show 18 < 32 by decide)]

/-- Rows become columns. -/
def transpose (x : List (U32 w)) : List (U32 w) :=
  pick x [0, 4, 8, 12, 1, 5, 9, 13, 2, 6, 10, 14, 3, 7, 11, 15]

theorem quarterRound_words : ∃ qa qb qc qd : U32 32 → U32 32 → U32 32 → U32 32 → U32 32,
    ∀ a b c d, quarterRound a b c d = [qa a b c d, qb a b c d, qc a b c d, qd a b c d] :=
  ⟨_, _, _, _, fun _ _ _ _ => rfl⟩

/-- The rounds of `core` go down the columns, and leave the matrix transposed. -/
theorem coreRound_transpose {x : List (U32 32)} (hlen : x.length = 16) :
    coreRound x = transpose (columnRound x) := by
  obtain ⟨qa, qb, qc, qd, hq⟩ := quarterRound_words
  match x, hlen with
  | [x0, x1, x2, x3, x4, x5, x6, x7, x8, x9, x10, x11, x12, x13, x14, x15], _ =>
      simp only [coreRound, quarter_eq, columnRound, quarters, hq]
      rfl

theorem rowRound_transpose {x : List (U32 32)} (hlen : x.length = 16) :
    rowRound x = transpose (columnRound (transpose x)) := by
  obtain ⟨qa, qb, qc, qd, hq⟩ := quarterRound_words
  match x, hlen with
  | [x0, x1, x2, x3, x4, x5, x6, x7, x8, x9, x10, x11, x12, x13, x14, x15], _ =>
      simp only [columnRound, rowRound, quarters, hq]
      rfl

theorem coreRound_coreRound {x : List (U32 32)} (hlen : x.length = 16) :
    coreRound (coreRound x) = doubleRound x := by
  rw [coreRound_transpose hlen, coreRound_transpose rfl, doubleRound, rowRound_transpose rfl]

/-! ## The width of words -/

/-- The bits that count. -/
def low (x : U32 w) : U32 32 := x.setWidth 32

theorem low_add (hw : 32 ≤ w) (a b : U32 w) : low (a + b) = low a + low b :=
  BitVec.setWidth_add a b hw

theorem low_sub (hw : 32 ≤ w) (a b : U32 w) : low (a - b) = low a - low b := by
  rw [BitVec.sub_eq_add_neg, BitVec.sub_eq_add_neg, low_add hw]
  exact congrArg (low a + ·) (BitVec.setWidth_neg_of_le hw)

theorem low_l32 (hw : 32 ≤ w) (x : U32 w) (c : ℕ) : low (l32 x c) = l32 (low x) c := by
  have hright : low ((x &&& 0xffffffff) >>> (32 - c)) = (low x &&& 0xffffffff) >>> (32 - c) := by
    have hmask : (x &&& 0xffffffff).toNat = x.toNat % 2 ^ 32 :=
      @toNat_and_mask w hw x 32 (Nat.le_refl _)
    have hones : low x &&& 0xffffffff = low x := BitVec.and_allOnes
    have hle : x.toNat % 2 ^ 32 / 2 ^ (32 - c) ≤ x.toNat % 2 ^ 32 := Nat.div_le_self _ _
    apply BitVec.eq_of_toNat_eq
    rw [hones, toNat_shift, low, low, BitVec.toNat_setWidth, BitVec.toNat_setWidth, toNat_shift,
      hmask, Nat.mod_eq_of_lt]
    omega
  rw [l32, l32, ← hright, low, low, low, BitVec.setWidth_or, BitVec.setWidth_shiftLeft_of_le hw]

theorem low_quarter (hw : 32 ≤ w) (a b c d : U32 w) :
    (quarter a b c d).map low = quarter (low a) (low b) (low c) (low d) := by
  have hxor : ∀ x y : U32 w, low (x ^^^ y) = low x ^^^ low y := fun _ _ => BitVec.setWidth_xor
  simp only [quarter, List.map_cons, List.map_nil, hxor, low_l32 hw, low_add hw]

theorem low_wordAt (x : List (U32 w)) (i : ℕ) : low (wordAt x i) = wordAt (x.map low) i := by
  have hzero : low (0 : U32 w) = 0 := BitVec.setWidth_zero 32 w
  rw [wordAt, wordAt, ← hzero, List.getD_map]

theorem coreRound_rows (x : List (U32 w)) :
    coreRound x = quarter (wordAt x 0) (wordAt x 4) (wordAt x 8) (wordAt x 12) ++
      ((quarter (wordAt x 5) (wordAt x 9) (wordAt x 13) (wordAt x 1)).rotateRight 1 ++
        ((quarter (wordAt x 10) (wordAt x 14) (wordAt x 2) (wordAt x 6)).rotateRight 2 ++
          (quarter (wordAt x 15) (wordAt x 3) (wordAt x 7) (wordAt x 11)).rotateRight 3)) := rfl

theorem map_rotateRight_quarter (f : U32 w → U32 32) (a b c d : U32 w) (j : ℕ) :
    ((quarter a b c d).rotateRight j).map f = ((quarter a b c d).map f).rotateRight j := by
  simp only [List.rotateRight, List.length_map]
  split
  · rfl
  · rw [List.map_append, List.map_drop, List.map_take]

theorem low_coreRound (hw : 32 ≤ w) (x : List (U32 w)) :
    (coreRound x).map low = coreRound (x.map low) := by
  simp only [coreRound_rows, List.map_append, map_rotateRight_quarter, low_quarter hw, low_wordAt]

theorem low_iterate (hw : 32 ≤ w) (x : List (U32 w)) (n : ℕ) :
    (coreRound^[n] x).map low = coreRound^[n] (x.map low) := by
  induction n generalizing x with
  | zero => rfl
  | succ n ih => rw [Function.iterate_succ_apply, Function.iterate_succ_apply, ih, low_coreRound hw]

theorem low_ld32 (hw : 32 ≤ w) (x : Bytes) : low (ld32 x : U32 w) = ld32 x := by
  have hbyte : ∀ b : UInt8, low (ofU8 b : U32 w) = ofU8 b :=
    fun b => BitVec.setWidth_setWidth_of_le b.toBitVec hw
  have hor : ∀ x y : U32 w, low (x ||| y) = low x ||| low y := fun _ _ => BitVec.setWidth_or
  have hshift : ∀ x : U32 w, low (x <<< 8) = low x <<< 8 :=
    fun _ => BitVec.setWidth_shiftLeft_of_le hw
  simp only [ld32, hor, hshift, hbyte]

theorem low_coreInput (hw : 32 ≤ w) (inp k c : Bytes) :
    (coreInput w inp k c).map low = coreInput 32 inp k c := by
  simp only [coreInput, List.map_append, List.map_cons, List.map_nil, List.map_map,
    Function.comp_def, low_ld32 hw]

theorem toU8_low (u : U32 w) {k : ℕ} (hk : k ≤ 24) :
    toU8 (u >>> k) = toU8 (low u >>> k) := by
  rw [toU8, toU8]
  congr 1
  ext i hi
  simp only [low, BitVec.getElem_setWidth, BitVec.getLsbD_ushiftRight, BitVec.getLsbD_setWidth]
  have hlt : decide (k + i < 32) = true := decide_eq_true (by omega)
  rw [hlt, Bool.true_and]

theorem st32_low (u : U32 w) : st32 u = st32 (low u) := by
  have hfirst : toU8 u = toU8 (low u) := by
    have hshift := @toU8_low w u 0 (by decide)
    rwa [BitVec.ushiftRight_zero, BitVec.ushiftRight_zero] at hshift
  simp only [st32, ← BitVec.shiftRight_add]
  rw [hfirst, @toU8_low w u 8 (by decide), @toU8_low w u (8 + 8) (by decide),
    @toU8_low w u (8 + 8 + 8) (by decide)]

/-- The blocks do not depend on the width of the words. -/
theorem core_width (hw : 32 ≤ w) (inp k c : Bytes) (h : Bool) :
    core w inp k c h = core 32 inp k c h := by
  have hsum : (List.zipWith (· + ·) (coreRound^[20] (coreInput w inp k c))
      (coreInput w inp k c)).map low = List.zipWith (· + ·)
        (coreRound^[20] (coreInput 32 inp k c)) (coreInput 32 inp k c) := by
    rw [← low_coreInput hw, ← low_iterate hw, List.map_zipWith, List.zipWith_map]
    simp only [low_add hw]
  cases h with
  | false =>
      simp only [core, Bool.false_eq_true, if_false]
      rw [← hsum, List.flatMap_map]
      exact congrArg (List.flatMap · _) (funext fun u => st32_low u)
  | true =>
      have hword : ∀ i (b : Bytes), st32 (wordAt (List.zipWith (· + ·)
          (coreRound^[20] (coreInput w inp k c)) (coreInput w inp k c)) i - ld32 b) =
          st32 (wordAt (List.zipWith (· + ·) (coreRound^[20] (coreInput 32 inp k c))
            (coreInput 32 inp k c)) i - ld32 b) := by
        intro i b
        rw [st32_low, low_sub hw, low_wordAt, hsum, low_ld32 hw]
      simp only [core, if_true, hword]

/-! ## Blocks -/

/-- The twenty rounds of Salsa20. -/
def rounds (x : List (U32 32)) : List (U32 32) := doubleRound^[10] x

theorem iterate_coreRound {x : List (U32 32)} (hlen : x.length = 16) (n : ℕ) :
    coreRound^[2 * n] x = doubleRound^[n] x := by
  induction n generalizing x with
  | zero => rfl
  | succ n ih =>
      have htwo : coreRound^[2 * (n + 1)] x = coreRound^[2 * n] (coreRound (coreRound x)) := rfl
      rw [htwo, coreRound_coreRound hlen, ih rfl, Function.iterate_succ_apply]

theorem rounds_length {x : List (U32 32)} (hlen : x.length = 16) (n : ℕ) :
    (doubleRound^[n] x).length = 16 := by
  cases n with
  | zero => exact hlen
  | succ n =>
      rw [Function.iterate_succ_apply']
      rfl

/-- The block of Salsa20 for 16 bytes of input. -/
def salsa20 (inp k : Bytes) : Bytes :=
  (List.zipWith (· + ·) (rounds (coreInput 32 inp k sigma)) (coreInput 32 inp k sigma)).flatMap st32

/-- The key that HSalsa20 derives. -/
def hsalsa20 (inp k : Bytes) : Bytes :=
  (pick (rounds (coreInput 32 inp k sigma)) [0, 5, 10, 15, 6, 7, 8, 9]).flatMap st32

theorem cryptoCoreSalsa20_eq (hw : 32 ≤ w) (inp k : Bytes) :
    cryptoCoreSalsa20 w inp k sigma = salsa20 inp k := by
  have hrounds := @iterate_coreRound (coreInput 32 inp k sigma) rfl 10
  rw [cryptoCoreSalsa20, core_width hw, core, salsa20, rounds, ← hrounds]
  rfl

theorem wordAt_zipWith {x y : List (U32 32)} (h : x.length = y.length) (i : ℕ) :
    wordAt (List.zipWith (· + ·) x y) i = wordAt x i + wordAt y i := by
  simp only [wordAt, List.getD_eq_getElem?_getD, List.getElem?_zipWith]
  by_cases hi : i < x.length
  · rw [List.getElem?_eq_getElem hi, List.getElem?_eq_getElem (h ▸ hi)]
    rfl
  · rw [List.getElem?_eq_none (by omega), List.getElem?_eq_none (by omega)]
    rfl

/-- What is added at the end is taken off again. -/
theorem taken_off {x : List (U32 32)} (hlen : x.length = 16) (inp k c : Bytes) :
    ((List.range 4).flatMap fun i => st32 (wordAt (List.zipWith (· + ·) x
        (coreInput 32 inp k c)) (5 * i) - ld32 (c.drop (4 * i)))) ++
      ((List.range 4).flatMap fun i => st32 (wordAt (List.zipWith (· + ·) x
        (coreInput 32 inp k c)) (6 + i) - ld32 (inp.drop (4 * i)))) =
      (pick x [0, 5, 10, 15, 6, 7, 8, 9]).flatMap st32 := by
  have hword : ∀ i, wordAt (List.zipWith (· + ·) x (coreInput 32 inp k c)) i -
      wordAt (coreInput 32 inp k c) i = wordAt x i := by
    intro i
    rw [wordAt_zipWith hlen, BitVec.add_sub_cancel]
  have hconstants : ∀ i ∈ List.range 4, ld32 (c.drop (4 * i)) =
      wordAt (coreInput 32 inp k c) (5 * i) := by
    intro i hi
    match i, List.mem_range.mp hi with
    | 0, _ => rfl
    | 1, _ => rfl
    | 2, _ => rfl
    | 3, _ => rfl
  have hinput : ∀ i ∈ List.range 4, ld32 (inp.drop (4 * i)) =
      wordAt (coreInput 32 inp k c) (6 + i) := by
    intro i hi
    match i, List.mem_range.mp hi with
    | 0, _ => rfl
    | 1, _ => rfl
    | 2, _ => rfl
    | 3, _ => rfl
  have hfirst : ((List.range 4).flatMap fun i => st32 (wordAt (List.zipWith (· + ·) x
      (coreInput 32 inp k c)) (5 * i) - ld32 (c.drop (4 * i)))) =
        (List.range 4).flatMap fun i => st32 (wordAt x (5 * i)) :=
    List.flatMap_congr fun i hi => by rw [hconstants i hi, hword]
  have hsecond : ((List.range 4).flatMap fun i => st32 (wordAt (List.zipWith (· + ·) x
      (coreInput 32 inp k c)) (6 + i) - ld32 (inp.drop (4 * i)))) =
        (List.range 4).flatMap fun i => st32 (wordAt x (6 + i)) :=
    List.flatMap_congr fun i hi => by rw [hinput i hi, hword]
  rw [hfirst, hsecond]
  rfl

theorem cryptoCoreHsalsa20_eq (hw : 32 ≤ w) (inp k : Bytes) :
    cryptoCoreHsalsa20 w inp k sigma = hsalsa20 inp k := by
  have hrounds : coreRound^[20] (coreInput 32 inp k sigma) = rounds (coreInput 32 inp k sigma) :=
    @iterate_coreRound (coreInput 32 inp k sigma) rfl 10
  have hlen : (rounds (coreInput 32 inp k sigma)).length = 16 := rounds_length rfl 10
  rw [cryptoCoreHsalsa20, core_width hw, core, if_pos rfl, hrounds, hsalsa20]
  exact taken_off hlen inp k sigma

/-! ## Counting -/

theorem count_carry (hw : 32 ≤ w) {u : U32 w} (hu : u.toNat ≤ 256) (zs : Bytes) :
    (count u zs).map UInt8.toNat = (Limbs.carry 256 u.toNat (zs.map UInt8.toNat)).1 := by
  have hle := two_pow_le hw
  induction zs generalizing u with
  | nil => rfl
  | cons z zs ih =>
      have hz := z.toNat_lt
      have hadd : (u + ofU8 z).toNat = u.toNat + z.toNat := by
        rw [toNat_add_of_lt (by rw [toNat_ofU8 hw]; omega), toNat_ofU8 hw]
      have hnext : ((u + ofU8 z) >>> 8).toNat = (u.toNat + z.toNat) / 256 := by
        rw [toNat_shift, hadd]
        rfl
      have hbyte : (toU8 (u + ofU8 z)).toNat = (u.toNat + z.toNat) % 256 := by
        rw [← hadd]
        exact BitVec.toNat_setWidth ..
      have hrest := @ih ((u + ofU8 z) >>> 8) (by omega)
      rw [hnext] at hrest
      simp only [count, List.map_cons, Limbs.carry, hbyte, hrest]

theorem count_length (u : U32 w) (zs : Bytes) : (count u zs).length = zs.length := by
  induction zs generalizing u with
  | nil => rfl
  | cons z zs ih => rw [count, List.length_cons, ih, List.length_cons]

theorem count_leBytes (hw : 32 ≤ w) (i : ℕ) :
    count (1 : U32 w) (leBytes 8 i) = leBytes 8 (i + 1) := by
  have hone : (1 : U32 w).toNat = 1 := toNat_lit hw (by decide)
  apply leNat_inj
  · rw [count_length, leBytes_length, leBytes_length]
  · have hdigits := @Limbs.carry_digits 256 (by decide) 1 ((leBytes 8 i).map UInt8.toNat)
    have hvalue : Nat.ofDigits 256 ((leBytes 8 i).map UInt8.toNat) = i % 256 ^ 8 :=
      leNat_leBytes 8 i
    rw [List.length_map, leBytes_length, hvalue] at hdigits
    rw [leNat, count_carry hw (by omega), hone, hdigits, leNat_leBytes]
    omega

/-! ## Streams -/

/-- Byte `i` of a stream whose blocks are counted from `j` on. -/
def blockByte (n k : Bytes) (j i : ℕ) : UInt8 :=
  byteAt (salsa20 (n ++ leBytes 8 (j + i / 64)) k) (i % 64)

theorem xorBytes_eq (n k : Bytes) (m : Option Bytes) {b : ℕ} (hb : b ≤ 64) (j : ℕ) :
    xorBytes m (salsa20 (n ++ leBytes 8 j) k) b =
      (List.range b).map fun i => m.elim 0 (byteAt · i) ^^^ blockByte n k j i := by
  rw [xorBytes]
  refine List.map_congr_left fun i hi => ?_
  have hlt := List.mem_range.mp hi
  rw [blockByte, Nat.div_eq_of_lt (by omega), Nat.mod_eq_of_lt (by omega), Nat.add_zero]

theorem streamLoop_eq (hw : 32 ≤ w) {n : Bytes} (hn : n.length = 8) (k : Bytes)
    (m : Option Bytes) (b j : ℕ) :
    streamLoop w m b (n ++ leBytes 8 j) k =
      (List.range b).map fun i => m.elim 0 (byteAt · i) ^^^ blockByte n k j i := by
  induction b using Nat.strong_induction_on generalizing m j with
  | h b ih =>
      rw [streamLoop, cryptoCoreSalsa20_eq hw]
      by_cases hfull : b ≥ 64
      · have hrest := ih (b - 64) (by omega) (m.map (List.drop 64)) (j + 1)
        have hsplit : List.range b = List.range 64 ++ (List.range (b - 64)).map (64 + ·) := by
          rw [← List.range_add, Nat.add_sub_cancel' hfull]
        have hcount : (n ++ leBytes 8 j).take 8 ++ count (1 : U32 w) ((n ++ leBytes 8 j).drop 8) =
            n ++ leBytes 8 (j + 1) := by
          rw [List.take_left' hn, List.drop_left' hn, count_leBytes hw]
        rw [if_pos hfull, hcount, hrest, xorBytes_eq n k m (Nat.le_refl _), hsplit,
          List.map_append, List.map_map]
        congr 1
        refine List.map_congr_left fun i _ => ?_
        have hmessage : (m.map (List.drop 64)).elim 0 (byteAt · i) =
            m.elim 0 (byteAt · (64 + i)) := by
          cases m with
          | none => rfl
          | some m => simp [byteAt, List.getD_eq_getElem?_getD, List.getElem?_drop]
        have hdiv : (64 + i) / 64 = 1 + i / 64 := by omega
        have hmod : (64 + i) % 64 = i % 64 := Nat.add_mod_left 64 i
        change _ = m.elim 0 (byteAt · (64 + i)) ^^^ blockByte n k j (64 + i)
        rw [hmessage, blockByte, blockByte, hdiv, hmod, Nat.add_assoc]
      · rw [if_neg hfull, xorBytes_eq n k m (by omega)]
        by_cases hzero : b = 0
        · rw [if_neg (not_not.mpr hzero), hzero]
          rfl
        · rw [if_pos hzero]

/-- Byte `i` of the stream of XSalsa20. -/
def streamByte (n k : Bytes) (i : ℕ) : UInt8 :=
  blockByte ((List.range 8).map (byteAt (n.drop 16))) (hsalsa20 n k) 0 i

theorem cryptoStream_eq (hw : 32 ≤ w) (d : ℕ) (n k : Bytes) :
    cryptoStream w d n k = (List.range d).map (streamByte n k) := by
  have hstart : List.replicate 8 (0 : UInt8) = leBytes 8 0 := by decide
  rw [cryptoStream, cryptoStreamSalsa20Xor, cryptoCoreHsalsa20_eq hw, hstart, streamLoop_eq hw rfl]
  exact List.map_congr_left fun i _ => UInt8.zero_xor

theorem cryptoStreamXor_eq (hw : 32 ≤ w) (m : Bytes) (d : ℕ) (n k : Bytes) :
    cryptoStreamXor w m d n k =
      (List.range d).map fun i => byteAt m i ^^^ streamByte n k i := by
  have hstart : List.replicate 8 (0 : UInt8) = leBytes 8 0 := by decide
  rw [cryptoStreamXor, cryptoStreamSalsa20Xor, cryptoCoreHsalsa20_eq hw, hstart,
    streamLoop_eq hw rfl]
  rfl

/-- The streams of `crypto_stream` and of `crypto_stream_xor` are those of XSalsa20, of any length
and whatever the width of the words. -/
theorem cryptoStream_xsalsa20 (hw : 32 ≤ w) (n k : Bytes) :
    (∀ d, cryptoStream w d n k = (List.range d).map (streamByte n k)) ∧
      ∀ m d, cryptoStreamXor w m d n k =
        (List.range d).map fun i => byteAt m i ^^^ streamByte n k i :=
  ⟨fun d => cryptoStream_eq hw d n k, fun m d => cryptoStreamXor_eq hw m d n k⟩

theorem cryptoStream_xsalsa20_words :
    cryptoStreamXor 64 (asciiBytes "secret") 6 (List.replicate 24 1) (List.replicate 32 2) =
      cryptoStreamXor 32 (asciiBytes "secret") 6 (List.replicate 24 1) (List.replicate 32 2) :=
  ((cryptoStream_xsalsa20 (by decide) _ _).2 _ _).trans
    ((cryptoStream_xsalsa20 (by decide) _ _).2 _ _).symm

end Sunela.Tweetnacl
