import Mathlib.Data.List.GetD
import Sunela.Lib.Limbs
import Sunela.Model.Tweetnacl

/-! # One-time authentication is Poly1305

The words of `crypto_onetimeauth` never wrap around, and what they stand for is the value of a
polynomial. -/

namespace Sunela.Tweetnacl

variable {w : ℕ}

/-! ## Words and numbers -/

/-- What words stand for. -/
def value (l : List (U32 w)) : ℕ := Nat.ofDigits 256 (l.map BitVec.toNat)

/-- The number that bytes stand for. -/
def leNat (b : Bytes) : ℕ := Nat.ofDigits 256 (b.map UInt8.toNat)

/-- Seventeen bytes. -/
structure Limbs17 (l : List (U32 w)) : Prop where
  length : l.length = 17
  lt : ∀ u ∈ l, u.toNat < 256

theorem two_pow_le (hw : 32 ≤ w) : 2 ^ 32 ≤ 2 ^ w := Nat.pow_le_pow_right (by decide) hw

theorem toNat_zero : (0 : U32 w).toNat = 0 := BitVec.toNat_zero

theorem toNat_lit (hw : 32 ≤ w) {n : ℕ} (hn : n < 2 ^ 32) : (BitVec.ofNat w n).toNat = n := by
  have hle := two_pow_le hw
  rw [BitVec.toNat_ofNat, Nat.mod_eq_of_lt (by omega)]

theorem toNat_add_of_lt {a b : U32 w} (h : a.toNat + b.toNat < 2 ^ w) :
    (a + b).toNat = a.toNat + b.toNat := by
  rw [BitVec.toNat_add, Nat.mod_eq_of_lt h]

theorem toNat_and_mask (hw : 32 ≤ w) (u : U32 w) {k : ℕ} (hk : k ≤ 32) :
    (u &&& BitVec.ofNat w (2 ^ k - 1)).toNat = u.toNat % 2 ^ k := by
  have hle : 2 ^ k ≤ 2 ^ 32 := Nat.pow_le_pow_right (by decide) hk
  rw [BitVec.toNat_and, toNat_lit hw (by omega), Nat.and_two_pow_sub_one_eq_mod]

theorem toNat_shift (u : U32 w) (k : ℕ) : (u >>> k).toNat = u.toNat / 2 ^ k := by
  rw [BitVec.toNat_ushiftRight, Nat.shiftRight_eq_div_pow]

@[simp] theorem toNat_ofU8 (hw : 32 ≤ w) (b : UInt8) : (ofU8 b : U32 w).toNat = b.toNat := by
  have hle := two_pow_le hw
  have hlt := b.toNat_lt
  rw [ofU8, BitVec.toNat_setWidth, UInt8.toNat_toBitVec, Nat.mod_eq_of_lt (by omega)]

/-- As long as two words do not wrap around, carrying is that of numbers. -/
theorem carry_toNat (hw : 32 ≤ w) {bound : ℕ} (hbound : 2 * bound < 2 ^ w) {u : U32 w}
    {hs : List (U32 w)} (hu : u.toNat ≤ bound) (hhs : ∀ h ∈ hs, h.toNat ≤ bound) :
    (carry u hs).1.map BitVec.toNat = (Limbs.carry 256 u.toNat (hs.map BitVec.toNat)).1 ∧
      (carry u hs).2.toNat = (Limbs.carry 256 u.toNat (hs.map BitVec.toNat)).2 ∧
      (carry u hs).2.toNat ≤ bound := by
  induction hs generalizing u with
  | nil => exact ⟨rfl, rfl, hu⟩
  | cons h hs ih =>
      have hh := hhs h List.mem_cons_self
      have hadd : (u + h).toNat = u.toNat + h.toNat := toNat_add_of_lt (by omega)
      have hnext : ((u + h) >>> 8).toNat = (u.toNat + h.toNat) / 256 := by
        rw [toNat_shift, hadd]
        rfl
      have hbyte : ((u + h) &&& 255).toNat = (u.toNat + h.toNat) % 256 := by
        rw [← hadd]
        exact @toNat_and_mask w hw (u + h) 8 (by decide)
      obtain ⟨hdigits, hout, hle⟩ := @ih ((u + h) >>> 8) (by omega)
        fun h' hmem => hhs h' (List.mem_cons_of_mem _ hmem)
      rw [hnext] at hdigits hout
      simp only [carry, List.map_cons, Limbs.carry]
      exact ⟨by rw [hbyte, hdigits], hout, hle⟩

theorem carry_length (u : U32 w) (hs : List (U32 w)) : (carry u hs).1.length = hs.length := by
  induction hs generalizing u with
  | nil => rfl
  | cons h hs ih => simp [carry, ih]

/-- What `carry` makes of words that are not too large. -/
structure Carried (bound : ℕ) (u : U32 w) (hs : List (U32 w)) : Prop where
  length : (carry u hs).1.length = hs.length
  lt : ∀ d ∈ (carry u hs).1, d.toNat < 256
  value : value (carry u hs).1 + 256 ^ hs.length * (carry u hs).2.toNat =
    u.toNat + value hs
  out : (carry u hs).2.toNat ≤ bound

theorem carry_carried (hw : 32 ≤ w) {bound : ℕ} (hbound : 2 * bound < 2 ^ w) {u : U32 w}
    {hs : List (U32 w)} (hu : u.toNat ≤ bound) (hhs : ∀ h ∈ hs, h.toNat ≤ bound) :
    Carried bound u hs := by
  obtain ⟨hdigits, hout, hle⟩ := carry_toNat hw hbound hu hhs
  refine ⟨carry_length u hs, fun d hd => ?_, ?_, hle⟩
  · have hmem := List.mem_map_of_mem (f := BitVec.toNat) hd
    rw [hdigits] at hmem
    exact Limbs.carry_lt (by decide) _ _ _ hmem
  · have hvalue := @Limbs.carry_value 256 u.toNat (hs.map BitVec.toNat)
    rw [List.length_map] at hvalue
    rw [Tweetnacl.value, hdigits, hout, hvalue]
    rfl

theorem value_lt {l : List (U32 w)} (h : ∀ u ∈ l, u.toNat < 256) : value l < 256 ^ l.length := by
  have hdigits : ∀ x ∈ l.map BitVec.toNat, x < 256 := by
    intro x hx
    obtain ⟨u, hu, rfl⟩ := List.mem_map.mp hx
    exact h u hu
  have hlt := Nat.ofDigits_lt_base_pow_length (by decide) hdigits
  rwa [List.length_map] at hlt

theorem value_append (l l' : List (U32 w)) :
    value (l ++ l') = value l + 256 ^ l.length * value l' := by
  rw [value, List.map_append, Nat.ofDigits_append, List.length_map]
  rfl

theorem value_singleton (u : U32 w) : value [u] = u.toNat := Nat.ofDigits_singleton

/-- The lower bytes, and the highest word. -/
theorem value_split {l : List (U32 w)} (h : l.length = 17) :
    value l = value (l.take 16) + 256 ^ 16 * (wordAt l 16).toNat := by
  have hlast : l.drop 16 = [wordAt l 16] := by
    rw [List.drop_eq_getElem_cons (by omega), List.drop_eq_nil_of_le (by omega), wordAt,
      List.getD_eq_getElem _ _ (by omega)]
  have hsplit := value_append (l.take 16) (l.drop 16)
  rw [List.take_append_drop, hlast, value_singleton, List.length_take, h] at hsplit
  exact hsplit

theorem Limbs17.low_lt {l : List (U32 w)} (h : Limbs17 l) : value (l.take 16) < 256 ^ 16 := by
  have hlow : (l.take 16).length = 16 := by rw [List.length_take, h.length]; rfl
  have hlt : ∀ u ∈ l.take 16, u.toNat < 256 := fun u hu => h.lt u (List.mem_of_mem_take hu)
  exact (value_lt hlt).trans_eq (by rw [hlow])

/-! ## Addition -/

theorem sums_toNat (hw : 32 ≤ w) {h c : List (U32 w)} (hh : ∀ u ∈ h, u.toNat < 256)
    (hc : ∀ u ∈ c, u.toNat < 256) :
    (List.zipWith (· + ·) h c).map BitVec.toNat =
        List.zipWith (· + ·) (h.map BitVec.toNat) (c.map BitVec.toNat) ∧
      ∀ u ∈ List.zipWith (· + ·) h c, u.toNat ≤ 510 := by
  have hle := two_pow_le hw
  induction h generalizing c with
  | nil => exact ⟨rfl, fun u hu => absurd hu List.not_mem_nil⟩
  | cons a h ih =>
      cases c with
      | nil => exact ⟨rfl, fun u hu => absurd hu List.not_mem_nil⟩
      | cons b c =>
          have ha := hh a List.mem_cons_self
          have hb := hc b List.mem_cons_self
          have hadd : (a + b).toNat = a.toNat + b.toNat := toNat_add_of_lt (by omega)
          obtain ⟨hmap, hbound⟩ := ih (fun u hu => hh u (List.mem_cons_of_mem _ hu))
            fun u hu => hc u (List.mem_cons_of_mem _ hu)
          simp only [List.zipWith_cons_cons, List.map_cons, hmap, hadd]
          refine ⟨trivial, fun u hu => ?_⟩
          rcases List.mem_cons.mp hu with rfl | hu
          · omega
          · exact hbound u hu

theorem value_zipWith_add (hw : 32 ≤ w) {h c : List (U32 w)} (hh : Limbs17 h) (hc : Limbs17 c) :
    value (List.zipWith (· + ·) h c) = value h + value c := by
  have hlen : (h.map BitVec.toNat).length = (c.map BitVec.toNat).length := by
    rw [List.length_map, List.length_map, hh.length, hc.length]
  rw [value, (sums_toNat hw hh.lt hc.lt).1,
    ← Nat.ofDigits_add_ofDigits_eq_ofDigits_zipWith_of_length_eq hlen]
  rfl

theorem add1305_limbs (hw : 32 ≤ w) {h c : List (U32 w)} (hh : Limbs17 h) (hc : Limbs17 c) :
    Limbs17 (add1305 h c) ∧ value (add1305 h c) = (value h + value c) % 256 ^ 17 := by
  have hle := two_pow_le hw
  have hlen : (List.zipWith (· + ·) h c).length = 17 := by
    rw [List.length_zipWith, hh.length, hc.length]
    rfl
  have hcarried := @carry_carried w hw 510 (by omega) 0 _ (by simp)
    (sums_toNat hw hh.lt hc.lt).2
  have hlimbs : Limbs17 (add1305 h c) := ⟨hcarried.length.trans hlen, hcarried.lt⟩
  have hvalue := hcarried.value
  have hlt := value_lt hlimbs.lt
  rw [hlimbs.length] at hlt
  rw [hlen, value_zipWith_add hw hh hc, toNat_zero, Nat.zero_add] at hvalue
  refine ⟨hlimbs, ?_⟩
  rw [← hvalue, Nat.add_mul_mod_self_left]
  exact (Nat.mod_eq_of_lt hlt).symm

/-! ## Multiplication -/

theorem Limbs17.wordAt_lt {l : List (U32 w)} (h : Limbs17 l) (i : ℕ) :
    (wordAt l i).toNat < 256 := by
  by_cases hi : i < l.length
  · rw [wordAt, List.getD_eq_getElem _ _ hi]
    exact h.lt _ (List.getElem_mem hi)
  · rw [wordAt, List.getD_eq_default _ _ (Nat.le_of_not_lt hi), toNat_zero]
    decide

theorem wordAt_toNat (l : List (U32 w)) (i : ℕ) :
    (wordAt l i).toNat = (l.map BitVec.toNat).getD i 0 := by
  rw [wordAt, ← @toNat_zero w, List.getD_map]

/-- A sum of terms that does not wrap around. -/
theorem foldl_add_toNat {f : ℕ → U32 w} {n bound : ℕ} (hf : ∀ j < n, (f j).toNat ≤ bound)
    (hsum : n * bound < 2 ^ w) :
    ((List.range n).foldl (fun x j => x + f j) 0).toNat = ∑ j ∈ Finset.range n, (f j).toNat ∧
      ((List.range n).foldl (fun x j => x + f j) 0).toNat ≤ n * bound := by
  induction n with
  | zero => exact ⟨BitVec.toNat_zero, by simp⟩
  | succ n ih =>
      have hlast := hf n (Nat.lt_succ_self n)
      have hmul := Nat.add_one_mul n bound
      obtain ⟨heq, hle⟩ := ih (fun j hj => hf j (Nat.lt_succ_of_lt hj)) (by omega)
      have hadd : ((List.range n).foldl (fun x j => x + f j) 0 + f n).toNat =
          ((List.range n).foldl (fun x j => x + f j) 0).toNat + (f n).toNat :=
        toNat_add_of_lt (by omega)
      rw [List.range_succ, List.foldl_append, List.foldl_cons, List.foldl_nil,
        Finset.sum_range_succ, hadd, heq]
      exact ⟨rfl, by omega⟩

/-- The largest term of a product, and the largest sum of such terms. -/
def maxTerm : ℕ := 255 * (320 * 255)

def maxLimb : ℕ := 17 * maxTerm

theorem term_toNat (hw : 32 ≤ w) {h r : List (U32 w)} (hh : Limbs17 h) (hr : Limbs17 r)
    (i j : ℕ) :
    (wordAt h j * if j ≤ i then wordAt r (i - j) else (320 : U32 w) * wordAt r (i + 17 - j)).toNat =
        (wordAt h j).toNat * (if j ≤ i then (wordAt r (i - j)).toNat
          else 320 * (wordAt r (i + 17 - j)).toNat) ∧
      (wordAt h j).toNat * (if j ≤ i then (wordAt r (i - j)).toNat
          else 320 * (wordAt r (i + 17 - j)).toNat) ≤ maxTerm := by
  have hle := two_pow_le hw
  have hfactor := hh.wordAt_lt j
  have hmul : ∀ b, ((320 : U32 w) * wordAt r b).toNat = 320 * (wordAt r b).toNat := by
    intro b
    have hb := hr.wordAt_lt b
    have hlit : (320 : U32 w).toNat = 320 := toNat_lit hw (by decide)
    rw [BitVec.toNat_mul, hlit, Nat.mod_eq_of_lt (by omega)]
  have hcond : (if j ≤ i then wordAt r (i - j) else (320 : U32 w) * wordAt r (i + 17 - j)).toNat =
      if j ≤ i then (wordAt r (i - j)).toNat else 320 * (wordAt r (i + 17 - j)).toNat := by
    split
    · rfl
    · exact hmul _
  have hsecond : (if j ≤ i then (wordAt r (i - j)).toNat
      else 320 * (wordAt r (i + 17 - j)).toNat) ≤ 320 * 255 := by
    have hb := hr.wordAt_lt (i - j)
    have hb' := hr.wordAt_lt (i + 17 - j)
    split <;> omega
  have hterm : (wordAt h j).toNat * (if j ≤ i then (wordAt r (i - j)).toNat
      else 320 * (wordAt r (i + 17 - j)).toNat) ≤ maxTerm :=
    Nat.mul_le_mul (by omega) hsecond
  refine ⟨?_, hterm⟩
  rw [BitVec.toNat_mul, hcond, Nat.mod_eq_of_lt]
  have hmax : maxTerm < 2 ^ 32 := by decide
  omega

theorem mul1305_toNat (hw : 32 ≤ w) {h r : List (U32 w)} (hh : Limbs17 h) (hr : Limbs17 r) :
    (mul1305 h r).map BitVec.toNat = (List.range 17).map (Limbs.foldedProduct 17 320
        ((h.map BitVec.toNat).getD · 0) ((r.map BitVec.toNat).getD · 0)) ∧
      ∀ u ∈ mul1305 h r, u.toNat ≤ maxLimb := by
  have hle := two_pow_le hw
  have hmax : 17 * maxTerm < 2 ^ 32 := by decide
  have hsum : ∀ i, _ := fun i => @foldl_add_toNat w (fun j => wordAt h j *
      if j ≤ i then wordAt r (i - j) else (320 : U32 w) * wordAt r (i + 17 - j)) 17 maxTerm
    (fun j _ => (term_toNat hw hh hr i j).1.trans_le (term_toNat hw hh hr i j).2) (by omega)
  constructor
  · rw [mul1305, List.map_map]
    refine List.map_congr_left fun i _ => ?_
    refine (hsum i).1.trans ?_
    refine Finset.sum_congr rfl fun j _ => ?_
    rw [(term_toNat hw hh hr i j).1, wordAt_toNat, wordAt_toNat, wordAt_toNat]
  · intro u hu
    obtain ⟨i, -, rfl⟩ := List.mem_map.mp hu
    exact (hsum i).2

/-- The number that Poly1305 computes modulo. -/
def modulus1305 : ℕ := 2 ^ 130 - 5

theorem mul1305_value (hw : 32 ≤ w) {h r : List (U32 w)} (hh : Limbs17 h) (hr : Limbs17 r) :
    value (mul1305 h r) ≡ value h * value r [MOD modulus1305] := by
  have hpow : 256 ^ 17 ≡ 320 [MOD modulus1305] := by decide
  have hproduct := @Limbs.foldedProduct_modEq 256 17 320 modulus1305 hpow (h.map BitVec.toNat)
    (r.map BitVec.toNat) (by rw [List.length_map, hh.length]) (by rw [List.length_map, hr.length])
  rw [value, (mul1305_toNat hw hh hr).1]
  exact hproduct

/-! ## Blocks -/

/-- What `h` is between two blocks. -/
structure Reduced (h : List (U32 w)) : Prop where
  limbs : Limbs17 h
  lt : value h < 2 ^ 130 + 2 ^ 30

theorem squeeze_eq (x : List (U32 w)) :
    squeeze x = (carry ((5 : U32 w) * (((carry 0 (x.take 16)).2 + wordAt x 16) >>> 2))
        (carry 0 (x.take 16)).1).1 ++
      [(carry ((5 : U32 w) * (((carry 0 (x.take 16)).2 + wordAt x 16) >>> 2))
        (carry 0 (x.take 16)).1).2 + (((carry 0 (x.take 16)).2 + wordAt x 16) &&& 3)] := rfl

theorem squeeze_reduced (hw : 32 ≤ w) {x : List (U32 w)} (hlen : x.length = 17)
    (hx : ∀ u ∈ x, u.toNat ≤ maxLimb) :
    Reduced (squeeze x) ∧ value (squeeze x) ≡ value x [MOD modulus1305] := by
  have hle := two_pow_le hw
  have hmax : maxLimb = 353736000 := by decide
  have hsplit := value_split hlen
  have htop : (wordAt x 16).toNat ≤ maxLimb := by
    rw [wordAt, List.getD_eq_getElem _ _ (by omega)]
    exact hx _ (List.getElem_mem _)
  have hlow : (x.take 16).length = 16 := by rw [List.length_take, hlen]; rfl
  have hzero : (0 : U32 w).toNat = 0 := toNat_zero
  have hfive : (5 : U32 w).toNat = 5 := toNat_lit hw (by decide)
  have hfirst := @carry_carried w hw maxLimb (by omega) 0 (x.take 16) (by omega)
    fun u hu => hx u (List.mem_of_mem_take hu)
  rw [squeeze_eq]
  generalize hd : (carry 0 (x.take 16)).1 = d at *
  generalize hu : (carry 0 (x.take 16)).2 = u at *
  have hdlen : d.length = 16 := by rw [← hd, hfirst.length, hlow]
  have hdlt : ∀ c ∈ d, c.toNat < 256 := by
    rw [← hd]
    exact hfirst.lt
  have hule : u.toNat ≤ maxLimb := by
    rw [← hu]
    exact hfirst.out
  have hdigits : value d + 256 ^ 16 * u.toNat = value (x.take 16) := by
    have hvalue := hfirst.value
    rw [hd, hu, hlow, hzero, Nat.zero_add] at hvalue
    exact hvalue
  have hsum : (u + wordAt x 16).toNat = u.toNat + (wordAt x 16).toNat :=
    toNat_add_of_lt (by omega)
  generalize hv : u + wordAt x 16 = v at *
  have hlowbits : (v &&& 3).toNat = v.toNat % 4 := @toNat_and_mask w hw v 2 (by decide)
  have hcarried : ((5 : U32 w) * (v >>> 2)).toNat = 5 * (v.toNat / 4) := by
    rw [BitVec.toNat_mul, hfive, toNat_shift, Nat.mod_eq_of_lt (by omega)]
    rfl
  have hsecond := @carry_carried w hw (2 ^ 30) (by omega) ((5 : U32 w) * (v >>> 2)) d (by omega)
    fun c hc => by
      have hlt := hdlt c hc
      omega
  have hdvalue := value_lt hdlt
  have hvalue := hsecond.value
  have hevalue := value_lt hsecond.lt
  rw [hdlen, hcarried] at hvalue
  rw [hdlen] at hdvalue
  rw [hsecond.length, hdlen] at hevalue
  generalize he : (carry ((5 : U32 w) * (v >>> 2)) d).1 = e at *
  generalize ht : (carry ((5 : U32 w) * (v >>> 2)) d).2 = t at *
  have helen : e.length = 16 := by rw [← he, hsecond.length, hdlen]
  have htop' : (t + (v &&& 3)).toNat = t.toNat + v.toNat % 4 := by
    rw [toNat_add_of_lt (by omega), hlowbits]
  have hresult : value (e ++ [t + (v &&& 3)]) = 5 * (v.toNat / 4) + value d +
      256 ^ 16 * (v.toNat % 4) := by
    rw [value_append, helen, value_singleton, htop']
    omega
  refine ⟨⟨⟨by rw [List.length_append, helen]; rfl, fun c hc => ?_⟩, ?_⟩, ?_⟩
  · rcases List.mem_append.mp hc with hc | hc
    · rw [← he] at hc
      exact hsecond.lt c hc
    · rw [List.mem_singleton.mp hc, htop']
      omega
  · rw [hresult]
    omega
  · have htotal : value x = value (e ++ [t + (v &&& 3)]) + modulus1305 * (v.toNat / 4) := by
      rw [hresult, hsplit, modulus1305]
      omega
    rw [htotal]
    exact (Nat.add_mul_mod_self_left _ _ _).symm

/-- The blocks of a message, each with a one behind it. -/
def messageBlocks (m : Bytes) : List ℕ :=
  if m = [] then [] else leNat (m.take 16 ++ [1]) :: messageBlocks (m.drop 16)
termination_by m.length
decreasing_by exact length_drop_lt ‹_›

theorem ofU8_value (hw : 32 ≤ w) (b : Bytes) : value (b.map (ofU8 (w := w))) = leNat b := by
  rw [value, List.map_map, leNat]
  congr 1
  exact List.map_congr_left fun c _ => toNat_ofU8 hw c

theorem ofU8_lt (hw : 32 ≤ w) (b : Bytes) :
    ∀ u ∈ b.map (ofU8 (w := w)), u.toNat < 256 := by
  intro u hu
  obtain ⟨c, -, rfl⟩ := List.mem_map.mp hu
  rw [toNat_ofU8 hw]
  exact c.toNat_lt

theorem leNat_append (a b : Bytes) : leNat (a ++ b) = leNat a + 256 ^ a.length * leNat b := by
  rw [leNat, List.map_append, Nat.ofDigits_append, List.length_map]
  rfl

theorem leNat_lt (b : Bytes) : leNat b < 256 ^ b.length := by
  have hdigits : ∀ x ∈ b.map UInt8.toNat, x < 256 := by
    intro x hx
    obtain ⟨c, -, rfl⟩ := List.mem_map.mp hx
    exact c.toNat_lt
  have hlt := Nat.ofDigits_lt_base_pow_length (by decide) hdigits
  rwa [List.length_map] at hlt

theorem value_replicate_zero (n : ℕ) : value (List.replicate n (0 : U32 w)) = 0 := by
  rw [value, List.map_replicate, toNat_zero, Nat.ofDigits_replicate_zero]

theorem blockWords_limbs (hw : 32 ≤ w) (m : Bytes) :
    Limbs17 (blockWords m : List (U32 w)) ∧
      value (blockWords m : List (U32 w)) = leNat (m.take 16 ++ [1]) ∧
      value (blockWords m : List (U32 w)) < 2 ^ 129 := by
  have hone : (1 : U32 w).toNat = 1 := toNat_lit hw (by decide)
  have htake : (m.take 16).length ≤ 16 := List.length_take_le _ _
  have hlen : ((m.take 16).map (ofU8 (w := w))).length = (m.take 16).length := List.length_map _
  have hvalue : value (blockWords m : List (U32 w)) = leNat (m.take 16 ++ [1]) := by
    have hbyte : leNat [1] = 1 := rfl
    rw [blockWords, value_append, ofU8_value hw, hlen, leNat_append, ← List.singleton_append,
      value_append, value_singleton, value_replicate_zero, hone, hbyte, Nat.mul_zero, Nat.add_zero]
  refine ⟨⟨?_, fun u hu => ?_⟩, hvalue, ?_⟩
  · rw [blockWords, List.length_append, List.length_cons, List.length_replicate, hlen]
    omega
  · rcases List.mem_append.mp hu with hu | hu
    · exact ofU8_lt hw _ u hu
    · rcases List.mem_cons.mp hu with rfl | hu
      · omega
      · rw [List.eq_of_mem_replicate hu, toNat_zero]
        decide
  · have hlt := leNat_lt (m.take 16)
    have hpow : 256 ^ (m.take 16).length ≤ 256 ^ 16 := Nat.pow_le_pow_right (by decide) htake
    have hbyte : leNat [1] = 1 := rfl
    rw [hvalue, leNat_append, hbyte]
    omega

/-- One block. -/
theorem block_reduced (hw : 32 ≤ w) {h r : List (U32 w)} (hh : Reduced h) (hr : Limbs17 r)
    (m : Bytes) :
    Reduced (squeeze (mul1305 (add1305 h (blockWords m)) r)) ∧
      value (squeeze (mul1305 (add1305 h (blockWords m)) r)) ≡
        (value h + leNat (m.take 16 ++ [1])) * value r [MOD modulus1305] := by
  obtain ⟨hblock, hvalue, hlt⟩ := blockWords_limbs (w := w) hw m
  obtain ⟨hadd, hsum⟩ := add1305_limbs hw hh.limbs hblock
  have hexact : value (add1305 h (blockWords m)) = value h + leNat (m.take 16 ++ [1]) := by
    have hhlt := hh.lt
    rw [hsum, hvalue, Nat.mod_eq_of_lt]
    omega
  have hlen : (mul1305 (add1305 h (blockWords m)) r).length = 17 := by
    rw [mul1305, List.length_map, List.length_range]
  obtain ⟨hreduced, hmod⟩ := squeeze_reduced hw hlen (mul1305_toNat hw hadd hr).2
  have hproduct := mul1305_value hw hadd hr
  rw [hexact] at hproduct
  exact ⟨hreduced, hmod.trans hproduct⟩

/-- All blocks. -/
theorem authLoop_reduced (hw : 32 ≤ w) {r : List (U32 w)} (hr : Limbs17 r) (h : List (U32 w))
    (m : Bytes) (hh : Reduced h) :
    Reduced (authLoop r h m) ∧
      value (authLoop r h m) ≡
        (messageBlocks m).foldl (fun a c => (a + c) * value r) (value h) [MOD modulus1305] := by
  induction h, m using authLoop.induct r with
  | case1 h =>
      rw [authLoop, messageBlocks, if_pos rfl, if_pos rfl]
      exact ⟨hh, Nat.ModEq.refl _⟩
  | case2 h m hne ih =>
      obtain ⟨hblock, hvalue⟩ := block_reduced hw hh hr m
      obtain ⟨hreduced, hrest⟩ := ih hblock
      rw [authLoop, messageBlocks, if_neg hne, if_neg hne, List.foldl_cons]
      exact ⟨hreduced, hrest.trans (Limbs.foldl_modEq hvalue _)⟩

/-! ## The remainder -/

theorem minusp_limbs (hw : 32 ≤ w) :
    Limbs17 (minusp : List (U32 w)) ∧ value (minusp : List (U32 w)) = 256 ^ 17 - modulus1305 := by
  have hle := two_pow_le hw
  have hwords : (minusp : List (U32 w)).map BitVec.toNat =
      [5, 0, 0, 0, 0, 0, 0, 0, 0, 0, 0, 0, 0, 0, 0, 0, 252] := by
    have hfive : (5 : U32 w).toNat = 5 := toNat_lit hw (by decide)
    have htop : (252 : U32 w).toNat = 252 := toNat_lit hw (by decide)
    simp only [minusp, List.map_cons, List.map_nil, toNat_zero, hfive, htop]
  refine ⟨⟨rfl, fun u hu => ?_⟩, ?_⟩
  · have hmem : u.toNat ∈ (minusp : List (U32 w)).map BitVec.toNat := List.mem_map_of_mem hu
    rw [hwords] at hmem
    have hall : ∀ x ∈ [5, 0, 0, 0, 0, 0, 0, 0, 0, 0, 0, 0, 0, 0, 0, 0, 252], x < 256 := by decide
    exact hall _ hmem
  · rw [value, hwords]
    decide

theorem select_zero {h : List (U32 w)} (hs : wordAt h 16 >>> 7 = 0) {g : List (U32 w)}
    (hlen : h.length = g.length) : select h g = h := by
  have hzero : -(0 : U32 w) = 0 := BitVec.neg_zero w
  have hand : ∀ x : U32 w, 0 &&& x = 0 := fun x => BitVec.zero_and
  have hxor : ∀ x : U32 w, x ^^^ 0 = x := fun x => BitVec.xor_zero
  rw [select, hs]
  simp only [hzero, hand, hxor]
  apply List.ext_getElem
  · rw [List.length_zipWith, hlen, Nat.min_self]
  · intro i hi hi'
    rw [List.getElem_zipWith]

theorem select_one {h : List (U32 w)} (hs : wordAt h 16 >>> 7 = 1) {g : List (U32 w)}
    (hlen : h.length = g.length) : select h g = g := by
  have hones : -(1 : U32 w) = BitVec.allOnes w := BitVec.neg_one_eq_allOnes
  have hand : ∀ x : U32 w, BitVec.allOnes w &&& x = x := fun x => BitVec.allOnes_and
  have hxor : ∀ a b : U32 w, a ^^^ (b ^^^ a) = b := by
    intro a b
    rw [BitVec.xor_comm b a, ← BitVec.xor_assoc, BitVec.xor_self, BitVec.zero_xor]
  rw [select, hs]
  simp only [hones, hand, hxor]
  apply List.ext_getElem
  · rw [List.length_zipWith, hlen, Nat.min_self]
  · intro i hi hi'
    rw [List.getElem_zipWith]

/-- The modulus is taken off if it can be. -/
theorem select_value (hw : 32 ≤ w) {g : List (U32 w)} (hg : Reduced g) :
    Limbs17 (select (add1305 g minusp) g) ∧
      value (select (add1305 g minusp) g) = value g % modulus1305 := by
  have hle := two_pow_le hw
  obtain ⟨hminus, hminusValue⟩ := minusp_limbs (w := w) hw
  obtain ⟨hadd, hsum⟩ := add1305_limbs hw hg.limbs hminus
  have hlen : (add1305 g minusp).length = g.length := by rw [hadd.length, hg.limbs.length]
  have hlt := hg.lt
  have hsplit := value_split hadd.length
  have hlow := hadd.low_lt
  have htop := toNat_shift (wordAt (add1305 g minusp) 16) 7
  have htoplt := hadd.wordAt_lt 16
  rw [hminusValue] at hsum
  simp only [modulus1305] at hsum ⊢
  by_cases hsmall : value g < 2 ^ 130 - 5
  · have hs : wordAt (add1305 g minusp) 16 >>> 7 = 1 := by
      apply BitVec.eq_of_toNat_eq
      have hone : (1 : U32 w).toNat = 1 := toNat_lit hw (by decide)
      rw [htop, hone]
      omega
    rw [select_one hs hlen, Nat.mod_eq_of_lt hsmall]
    exact ⟨hg.limbs, rfl⟩
  · have hs : wordAt (add1305 g minusp) 16 >>> 7 = 0 := by
      apply BitVec.eq_of_toNat_eq
      rw [htop, toNat_zero]
      omega
    rw [select_zero hs hlen]
    refine ⟨hadd, ?_⟩
    omega

/-! ## The tag -/

theorem leNat_take (k : Bytes) (n : ℕ) :
    leNat ((List.range n).map (byteAt k)) = leNat (k.take n) := by
  induction n generalizing k with
  | zero => rfl
  | succ n ih =>
      rw [List.range_succ_eq_map, List.map_cons, List.map_map]
      cases k with
      | nil =>
          have hrest := ih []
          have hzero : byteAt [] ∘ Nat.succ = byteAt [] := rfl
          rw [List.take_nil] at hrest ⊢
          rw [leNat, List.map_cons, Nat.ofDigits_cons, hzero]
          change 0 + 256 * leNat _ = _
          rw [hrest]
          rfl
      | cons b k =>
          have hrest := ih k
          have hnext : byteAt (b :: k) ∘ Nat.succ = byteAt k := rfl
          rw [hnext, List.take_succ_cons, leNat, leNat, List.map_cons, List.map_cons,
            Nat.ofDigits_cons, Nat.ofDigits_cons]
          change b.toNat + 256 * leNat _ = b.toNat + 256 * leNat _
          rw [hrest]

/-- The bits of the first half of the key that are used. -/
def clampMask : ℕ := 0x0ffffffc0ffffffc0ffffffc0fffffff

def maskBytes : List ℕ :=
  [255, 255, 255, 15, 252, 255, 255, 15, 252, 255, 255, 15, 252, 255, 255, 15]

theorem clampAt_toNat (hw : 32 ≤ w) {j : ℕ} (hj : j < 16) (b : UInt8) :
    (clampAt j (ofU8 b : U32 w)).toNat = b.toNat &&& maskBytes.getD j 0 := by
  have hfifteen : (15 : U32 w).toNat = 15 := toNat_lit hw (by decide)
  have hlast : (252 : U32 w).toNat = 252 := toNat_lit hw (by decide)
  have hall : ∀ j < 16, maskBytes.getD j 0 = if j = 3 ∨ j = 7 ∨ j = 11 ∨ j = 15 then 15
      else if j = 4 ∨ j = 8 ∨ j = 12 then 252 else 255 := by decide
  rw [hall j hj, clampAt]
  split
  · rw [BitVec.toNat_and, toNat_ofU8 hw, hfifteen]
  · split
    · rw [BitVec.toNat_and, toNat_ofU8 hw, hlast]
    · have hmask := Nat.and_two_pow_sub_one_eq_mod b.toNat 8
      rw [toNat_ofU8 hw, hmask, Nat.mod_eq_of_lt b.toNat_lt]

theorem keyWords_limbs (hw : 32 ≤ w) (k : Bytes) :
    Limbs17 (keyWords k : List (U32 w)) ∧
      value (keyWords k : List (U32 w)) = leNat (k.take 16) &&& clampMask := by
  have hwords : ((List.range 16).map fun j => clampAt j (ofU8 (byteAt k j) : U32 w)).map
      BitVec.toNat = List.zipWith (· &&& ·) (((List.range 16).map (byteAt k)).map UInt8.toNat)
        maskBytes := by
    rw [List.map_map, List.map_map]
    apply List.ext_getElem
    · rfl
    · intro j hj hj'
      rw [List.length_map, List.length_range] at hj
      rw [List.getElem_map, List.getElem_zipWith, List.getElem_map, List.getElem_range]
      exact (clampAt_toNat hw hj (byteAt k j)).trans
        (congrArg (_ &&& ·) (List.getD_eq_getElem maskBytes 0 hj))
  have hbytes : ∀ d ∈ ((List.range 16).map (byteAt k)).map UInt8.toNat, d < 2 ^ 8 := by
    intro d hd
    obtain ⟨b, -, rfl⟩ := List.mem_map.mp hd
    exact b.toNat_lt
  refine ⟨⟨rfl, fun u hu => ?_⟩, ?_⟩
  · rcases List.mem_append.mp hu with hu | hu
    · obtain ⟨j, hj, rfl⟩ := List.mem_map.mp hu
      have hle : (byteAt k j).toNat &&& maskBytes.getD j 0 ≤ (byteAt k j).toNat := Nat.and_le_left
      have hlt := (byteAt k j).toNat_lt
      rw [clampAt_toNat hw (List.mem_range.mp hj)]
      omega
    · rw [List.mem_singleton.mp hu, toNat_zero]
      decide
  · have hand := @Limbs.ofDigits_and 8 _ maskBytes hbytes (by decide) (by
      rw [List.length_map, List.length_map, List.length_range]; rfl)
    have hmask : Nat.ofDigits (2 ^ 8) maskBytes = clampMask := by decide
    rw [keyWords, value_append, value_singleton, toNat_zero, value, hwords, Nat.mul_zero,
      Nat.add_zero]
    rw [hmask] at hand
    exact hand.trans (congrArg (· &&& clampMask) (leNat_take k 16))

/-- The tag of a message as a number: the value of a polynomial whose coefficients are the blocks
of the message, the last one first, at the clamped half of the key, with the other half added. -/
def poly1305 (m k : Bytes) : ℕ :=
  (Nat.ofDigits (leNat (k.take 16) &&& clampMask) (0 :: (messageBlocks m).reverse) % modulus1305 +
    leNat ((k.drop 16).take 16)) % 2 ^ 128

theorem padWords_limbs (hw : 32 ≤ w) (k : Bytes) :
    Limbs17 (((List.range 16).map fun j => ofU8 (byteAt k (j + 16)) : List (U32 w)) ++ [0]) ∧
      value (((List.range 16).map fun j => ofU8 (byteAt k (j + 16)) : List (U32 w)) ++ [0]) =
        leNat ((k.drop 16).take 16) := by
  have hbyte : ∀ j, byteAt k (j + 16) = byteAt (k.drop 16) j := by
    intro j
    rw [byteAt, byteAt, List.getD_eq_getElem?_getD, List.getD_eq_getElem?_getD,
      List.getElem?_drop, Nat.add_comm]
  have hwords : ((List.range 16).map fun j => (ofU8 (byteAt k (j + 16)) : U32 w)) =
      ((List.range 16).map (byteAt (k.drop 16))).map ofU8 := by
    rw [List.map_map]
    exact List.map_congr_left fun j _ => congrArg ofU8 (hbyte j)
  refine ⟨⟨rfl, fun u hu => ?_⟩, ?_⟩
  · rcases List.mem_append.mp hu with hu | hu
    · rw [hwords] at hu
      exact ofU8_lt hw _ u hu
    · rw [List.mem_singleton.mp hu, toNat_zero]
      decide
  · rw [value_append, value_singleton, toNat_zero, hwords, ofU8_value hw, leNat_take, Nat.mul_zero,
      Nat.add_zero]

theorem leNat_map_toU8 {l : List (U32 w)} (h : ∀ u ∈ l, u.toNat < 256) :
    leNat (l.map toU8) = value l := by
  rw [leNat, List.map_map, value]
  congr 1
  refine List.map_congr_left fun u hu => ?_
  have hlt := h u hu
  change (u.setWidth 8).toNat = u.toNat
  rw [BitVec.toNat_setWidth, Nat.mod_eq_of_lt hlt]

theorem initial_reduced : Reduced (List.replicate 17 (0 : U32 w)) where
  limbs := ⟨rfl, fun u hu => by
    rw [List.eq_of_mem_replicate hu, toNat_zero]
    decide⟩
  lt := by
    rw [value_replicate_zero]
    decide

theorem cryptoOnetimeauth_tag (hw : 32 ≤ w) (m k : Bytes) :
    (cryptoOnetimeauth w m k).length = 16 ∧
      leNat (cryptoOnetimeauth w m k) = poly1305 m k := by
  obtain ⟨hkey, hkeyValue⟩ := keyWords_limbs (w := w) hw k
  obtain ⟨hpad, hpadValue⟩ := padWords_limbs (w := w) hw k
  obtain ⟨hreduced, hvalue⟩ := authLoop_reduced hw hkey _ m initial_reduced
  obtain ⟨hselect, hrest⟩ := select_value hw hreduced
  obtain ⟨hadd, hsum⟩ := add1305_limbs hw hselect hpad
  have hlow : ∀ u ∈ (add1305 (select (add1305 (authLoop (keyWords k) (List.replicate 17 0) m)
      minusp) (authLoop (keyWords k) (List.replicate 17 0) m))
      (((List.range 16).map fun j => ofU8 (byteAt k (j + 16)) : List (U32 w)) ++ [0])).take 16,
      u.toNat < 256 := fun u hu => hadd.lt u (List.mem_of_mem_take hu)
  have hsplit := value_split hadd.length
  have hlt := hadd.low_lt
  rw [value_replicate_zero, Limbs.foldl_eq_ofDigits, hkeyValue] at hvalue
  rw [hrest, hpadValue, hvalue] at hsum
  constructor
  · rw [cryptoOnetimeauth, List.length_map, List.length_take, hadd.length]
    rfl
  · rw [cryptoOnetimeauth, leNat_map_toU8 hlow, poly1305]
    rw [hsplit] at hsum
    omega

/-- A number in `n` bytes. -/
def leBytes (n i : ℕ) : Bytes := (List.range n).map fun j => UInt8.ofNat (i / 256 ^ j)

@[simp] theorem leBytes_length (n i : ℕ) : (leBytes n i).length = n := by
  rw [leBytes, List.length_map, List.length_range]

theorem leBytes_succ (n i : ℕ) : leBytes (n + 1) i = UInt8.ofNat i :: leBytes n (i / 256) := by
  have hdiv : ∀ j, i / 256 ^ (j + 1) = i / 256 / 256 ^ j := by
    intro j
    rw [Nat.div_div_eq_div_mul, Nat.pow_succ, Nat.mul_comm]
  rw [leBytes, List.range_succ_eq_map, List.map_cons, List.map_map, Nat.pow_zero, Nat.div_one]
  simp only [Function.comp_def, Nat.succ_eq_add_one, hdiv]
  rfl

theorem leNat_leBytes (n i : ℕ) : leNat (leBytes n i) = i % 256 ^ n := by
  induction n generalizing i with
  | zero => rw [Nat.pow_zero, Nat.mod_one]; rfl
  | succ n ih =>
      have hbyte : (UInt8.ofNat i).toNat = i % 256 := UInt8.toNat_ofNat'
      have hrest := ih (i / 256)
      rw [leBytes_succ, leNat, List.map_cons, Nat.ofDigits_cons, hbyte, Nat.pow_succ,
        Nat.mul_comm (256 ^ n), Nat.mod_mul]
      exact congrArg (i % 256 + 256 * ·) hrest

theorem leNat_inj {a b : Bytes} (hlen : a.length = b.length) (h : leNat a = leNat b) : a = b := by
  have hlt : ∀ c : Bytes, ∀ d ∈ c.map UInt8.toNat, d < 256 := by
    intro c d hd
    obtain ⟨x, -, rfl⟩ := List.mem_map.mp hd
    exact x.toNat_lt
  have hdigits := Nat.ofDigits_inj_of_len_eq (by decide)
    (by rw [List.length_map, List.length_map, hlen]) (hlt a) (hlt b) h
  exact List.map_injective_iff.mpr (fun _ _ => UInt8.toNat_inj.mp) hdigits

/-- Tags are those of Poly1305, whatever the width of the words. -/
theorem cryptoOnetimeauth_poly1305 (hw : 32 ≤ w) (m k : Bytes) :
    cryptoOnetimeauth w m k = leBytes 16 (poly1305 m k) := by
  obtain ⟨hlen, htag⟩ := cryptoOnetimeauth_tag hw m k
  apply leNat_inj
  · rw [hlen, leBytes_length]
  · rw [htag, leNat_leBytes, poly1305]
    omega

theorem cryptoOnetimeauth_poly1305_words :
    cryptoOnetimeauth 64 (asciiBytes "counter") (List.replicate 32 7) =
      leBytes 16 ((Nat.ofDigits (leNat (List.replicate 16 7) &&& clampMask)
        [0, leNat (asciiBytes "counter" ++ [1])] % modulus1305 + leNat (List.replicate 16 7)) %
          2 ^ 128) := by
  have htag := @cryptoOnetimeauth_poly1305 64 (by decide) (asciiBytes "counter")
    (List.replicate 32 7)
  have hblocks : messageBlocks (asciiBytes "counter") = [leNat (asciiBytes "counter" ++ [1])] := by
    rw [messageBlocks, if_neg (by decide), messageBlocks, if_pos (by decide)]
    rfl
  rw [poly1305, hblocks] at htag
  exact htag

end Sunela.Tweetnacl
