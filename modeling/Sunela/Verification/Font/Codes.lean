import Mathlib.Data.Nat.Digits.Defs
import Mathlib.Tactic.Ring
import Sunela.Model.Cvtfont

/-! # Packed codes are read back

Codes of a fixed number of bits are the digits of a number, and so are the bytes they are packed
into. The reader always holds what is left of this number. -/

namespace Sunela.Text

open Cvtfont

/-! ## Packing -/

/-- The codes are the digits of the number that the bytes make, the lowest first. -/
theorem packLoop_spec {bits v length : ℕ} {codes : List ℕ} (hbits : bits ≤ 8)
    (hv : v < 2 ^ length) (hlength : length ≤ 8) (hcodes : ∀ c ∈ codes, c < 2 ^ bits) :
    Nat.ofDigits 256 (packLoop bits v length codes) =
        v + 2 ^ length * Nat.ofDigits (2 ^ bits) codes ∧
      length + bits * codes.length ≤ 8 * (packLoop bits v length codes).length ∧
      ∀ b ∈ packLoop bits v length codes, b < 256 := by
  induction codes generalizing v length with
  | nil =>
      have hle : 2 ^ length ≤ 2 ^ 8 := Nat.pow_le_pow_right (by omega) hlength
      refine ⟨by simp [packLoop], by simpa [packLoop] using hlength, ?_⟩
      intro b hb
      obtain rfl : b = v := by simpa [packLoop] using hb
      omega
  | cons c codes ih =>
      have hc := hcodes c (by simp)
      have hrest : ∀ c ∈ codes, c < 2 ^ bits := fun c hc => hcodes c (by simp [hc])
      have hpow : 2 ^ (length + bits) = 2 ^ length * 2 ^ bits := pow_add 2 length bits
      have hshift : c <<< length = 2 ^ length * c := by rw [Nat.shiftLeft_eq, Nat.mul_comm]
      have hv' : v + c <<< length < 2 ^ (length + bits) := by
        have hmul : 2 ^ length * (c + 1) ≤ 2 ^ length * 2 ^ bits := Nat.mul_le_mul_left _ hc
        rw [hshift, hpow]
        rw [Nat.mul_add] at hmul
        omega
      simp only [packLoop]
      split
      · next hlong =>
          have h256 : 2 ^ (length + bits) = 2 ^ (length + bits - 8) * 256 := by
            rw [show 256 = 2 ^ 8 from rfl, ← pow_add, Nat.sub_add_cancel (by omega)]
          have hdiv : (v + c <<< length) >>> 8 < 2 ^ (length + bits - 8) := by
            rw [Nat.shiftRight_eq_div_pow]
            exact Nat.div_lt_of_lt_mul (by rw [Nat.mul_comm]; omega)
          obtain ⟨hval, hlen, hbytes⟩ := ih hdiv (by omega) hrest
          have hand : (v + c <<< length) &&& 255 = (v + c <<< length) % 256 :=
            Nat.and_two_pow_sub_one_eq_mod _ 8
          have hshr : (v + c <<< length) >>> 8 = (v + c <<< length) / 256 :=
            Nat.shiftRight_eq_div_pow _ 8
          have hsplit : (v + c <<< length) % 256 + 256 * ((v + c <<< length) / 256) =
              v + c <<< length := Nat.mod_add_div _ _
          refine ⟨?_, ?_, ?_⟩
          · rw [Nat.ofDigits_cons, hval, Nat.ofDigits_cons, hand, hshr]
            calc (v + c <<< length) % 256 + 256 * ((v + c <<< length) / 256 +
                  2 ^ (length + bits - 8) * Nat.ofDigits (2 ^ bits) codes)
                = ((v + c <<< length) % 256 + 256 * ((v + c <<< length) / 256)) +
                  2 ^ (length + bits - 8) * 256 * Nat.ofDigits (2 ^ bits) codes := by ring
              _ = v + 2 ^ length * (c + 2 ^ bits * Nat.ofDigits (2 ^ bits) codes) := by
                  rw [hsplit, ← h256, hpow, hshift]
                  ring
          · simp only [List.length_cons, Nat.mul_add] at hlen ⊢
            omega
          · intro b hb
            rcases List.mem_cons.mp hb with rfl | hb
            · exact Nat.lt_of_le_of_lt Nat.and_le_right (by decide)
            · exact hbytes b hb
      · next hshort =>
          obtain ⟨hval, hlen, hbytes⟩ := ih hv' (by omega) hrest
          refine ⟨?_, ?_, hbytes⟩
          · rw [hval, Nat.ofDigits_cons, hpow, hshift]
            ring
          · simp only [List.length_cons, Nat.mul_add] at hlen ⊢
            omega

/-! ## Reading -/

/-- What is left to be read are the codes. -/
structure Holds (r : Reader) (bits : ℕ) (codes : List ℕ) : Prop where
  got : r.got < 8
  buf : r.buf < 2 ^ r.got
  fit : ∀ c ∈ codes, c < 2 ^ bits
  value : r.buf + 2 ^ r.got * Nat.ofDigits 256 (r.p.map UInt8.toNat) =
    Nat.ofDigits (2 ^ bits) codes
  enough : bits * codes.length ≤ r.got + 8 * r.p.length

/-- All of the codes are left at first. -/
theorem holds_packLoop {bits : ℕ} {codes : List ℕ} (hbits : bits ≤ 8)
    (hcodes : ∀ c ∈ codes, c < 2 ^ bits) :
    Holds ⟨(packLoop bits 0 0 codes).map UInt8.ofNat, 0, 0⟩ bits codes := by
  obtain ⟨hval, hlen, hbytes⟩ := @packLoop_spec bits 0 0 codes hbits (by decide) (by decide) hcodes
  refine ⟨Nat.zero_lt_succ 7, Nat.zero_lt_one, hcodes, ?_, by simpa using hlen⟩
  have hmap : ((packLoop bits 0 0 codes).map UInt8.ofNat).map UInt8.toNat =
      packLoop bits 0 0 codes := by
    rw [List.map_map]
    conv_rhs => rw [← List.map_id (packLoop bits 0 0 codes)]
    apply List.map_congr_left
    intro b hb
    simpa using Nat.mod_eq_of_lt (hbytes b hb)
  simpa [hmap] using hval

variable {r : Reader} {bits c : ℕ} {codes : List ℕ}

/-- With enough bits in the buffer, its low bits are the next code. -/
theorem drop_holds (hbits : bits ≤ r.got) (hgot : r.got < bits + 8)
    (hbuf : r.buf < 2 ^ r.got) (hcodes : ∀ d ∈ c :: codes, d < 2 ^ bits)
    (hvalue : r.buf + 2 ^ r.got * Nat.ofDigits 256 (r.p.map UInt8.toNat) =
      Nat.ofDigits (2 ^ bits) (c :: codes))
    (henough : bits * (c :: codes).length ≤ r.got + 8 * r.p.length) :
    r.buf &&& (2 ^ bits - 1) = c ∧ Holds (r.drop bits) bits codes := by
  have hpow : 2 ^ r.got = 2 ^ bits * 2 ^ (r.got - bits) := by
    rw [← pow_add, Nat.add_sub_cancel' hbits]
  have hpos : 0 < 2 ^ bits := Nat.two_pow_pos bits
  have hc : c < 2 ^ bits := hcodes c (by simp)
  have hmod : r.buf % 2 ^ bits = c := by
    have h := congrArg (· % 2 ^ bits) hvalue
    simp only [Nat.ofDigits_cons] at h
    rw [hpow, Nat.mul_assoc, Nat.add_mul_mod_self_left, Nat.add_mul_mod_self_left,
      Nat.mod_eq_of_lt hc] at h
    exact h
  have hdrop : (r.got + 256 - bits) % 256 = r.got - bits := by omega
  refine ⟨by rw [Nat.and_two_pow_sub_one_eq_mod, hmod], ?_⟩
  refine ⟨?_, ?_, fun d hd => hcodes d (by simp [hd]), ?_, ?_⟩
  · simp only [Reader.drop, hdrop]
    omega
  · simp only [Reader.drop, hdrop, Nat.shiftRight_eq_div_pow]
    exact Nat.div_lt_of_lt_mul (by rw [← hpow]; exact hbuf)
  · simp only [Reader.drop, hdrop, Nat.shiftRight_eq_div_pow]
    have hsplit : r.buf = c + 2 ^ bits * (r.buf / 2 ^ bits) := by
      rw [← hmod, Nat.mod_add_div]
    rw [Nat.ofDigits_cons, hpow] at hvalue
    apply Nat.eq_of_mul_eq_mul_left hpos
    rw [Nat.mul_add, ← Nat.mul_assoc]
    rw [hsplit] at hvalue
    omega
  · simp only [Reader.drop, hdrop]
    simp only [List.length_cons, Nat.mul_add] at henough
    omega

/-- The next code can be read without running past the end of the data. -/
theorem Holds.next (h : Holds r bits (c :: codes)) (hpos : 0 < bits) (hbits : bits ≤ 8) :
    ∃ r', r.need bits = .ok r' ∧ r'.buf &&& (2 ^ bits - 1) = c ∧
      Holds (r'.drop bits) bits codes := by
  have hgot := h.got
  have hbuf := h.buf
  have hvalue := h.value
  have henough := h.enough
  by_cases hlt : r.got < bits
  · cases hp : r.p with
    | nil =>
        rw [hp] at henough
        simp only [List.length_cons, List.length_nil, Nat.mul_add] at henough
        omega
    | cons b p =>
        have hpow : 2 ^ (r.got + 8) = 2 ^ r.got * 256 := pow_add 2 r.got 8
        have hle : 2 ^ r.got * 256 ≤ 2 ^ 16 := by
          rw [← hpow]
          exact Nat.pow_le_pow_right (by decide) (by omega)
        have hb : b.toNat < 256 := b.toNat_lt
        have hor : r.buf ||| b.toNat <<< r.got = r.buf + 2 ^ r.got * b.toNat := by
          rw [Nat.or_comm, ← Nat.shiftLeft_add_eq_or_of_lt hbuf, Nat.shiftLeft_eq,
            Nat.mul_comm, Nat.add_comm]
        have hsum : r.buf + 2 ^ r.got * b.toNat < 2 ^ r.got * 256 := by
          have hmul : 2 ^ r.got * (b.toNat + 1) ≤ 2 ^ r.got * 256 := Nat.mul_le_mul_left _ hb
          rw [Nat.mul_add] at hmul
          omega
        have hmod : (r.buf + 2 ^ r.got * b.toNat) % 2 ^ 16 = r.buf + 2 ^ r.got * b.toNat :=
          Nat.mod_eq_of_lt (by omega)
        have hgot' : (r.got + 8) % 256 = r.got + 8 := Nat.mod_eq_of_lt (by omega)
        simp only [Reader.need, if_pos hlt, Reader.refill, hp]
        refine ⟨_, rfl, ?_⟩
        apply drop_holds
        · simp only [hgot']
          omega
        · simp only [hgot']
          omega
        · simp only [hgot', hor, hmod, hpow]
          exact hsum
        · exact h.fit
        · simp only [hgot', hor, hmod, hpow]
          rw [← hvalue, hp, List.map_cons, Nat.ofDigits_cons]
          ring
        · simp only [hgot']
          rw [hp, List.length_cons] at henough
          simp only [List.length_cons] at henough ⊢
          omega
  · refine ⟨r, if_neg hlt, drop_holds (by omega) (by omega) hbuf h.fit hvalue henough⟩

/-! ## Spans -/

/-- The colours and the lengths that the main loop gets, one after the other. -/
inductive Supplies (bits : Int8) : Bool → Reader → List (Bool × ℕ) → Prop where
  | nil {on : Bool} {r : Reader} : Supplies bits on r []
  | cons {on : Bool} {r r' : Reader} {span : Bool × ℕ} {spans : List (Bool × ℕ)} (k : ℕ)
      (next : ∀ fuel, k ≤ fuel → nextSpan fuel bits on r = .ok (span, r'))
      (rest : Supplies bits (!span.1) r' spans) : Supplies bits on r (span :: spans)

theorem supplies_pixels {on : Bool} {pixels : List Bool}
    (h : Holds r 1 (pixels.map Bool.toNat)) :
    Supplies 1 on r (pixels.map fun b => (b, 1)) := by
  induction pixels generalizing r on with
  | nil => exact .nil
  | cons b pixels ih =>
      obtain ⟨r', hr, hcode, hrest⟩ := h.next Nat.one_pos (by decide)
      refine @Supplies.cons _ _ _ (r'.drop 1) _ _ 0 (fun fuel _ => ?_) (ih hrest)
      have hempty : r.got = 0 → { r with buf := 0 } = r := by
        intro h0
        have hbuf := h.buf
        rw [h0] at hbuf
        have hz : r.buf = 0 := by omega
        cases r
        simp_all
      have hread : r.needBit = .ok r' := by
        rw [← hr, Reader.needBit, Reader.need]
        by_cases h0 : r.got = 0
        · rw [if_pos h0, if_pos (by omega), hempty h0]
        · rw [if_neg h0, if_neg (by omega)]
      have hbit : r'.buf.testBit 0 = b := by
        have hand : r'.buf % 2 = b.toNat := by
          rw [← hcode, Nat.and_two_pow_sub_one_eq_mod]
        rw [Nat.testBit_zero, hand]
        cases b <;> rfl
      simp only [nextSpan, if_true, hread]
      show Except.ok ((r'.buf.testBit 0, 1), r'.drop 1) = _
      rw [hbit]

theorem spanLoop_succ {r₁ : Reader} {fuel more : ℕ} (hr : r.need bits = .ok r₁)
    (hcode : r₁.buf &&& (2 ^ bits - 1) = c) :
    spanLoop (fuel + 1) bits more r =
      if (c + 1) % 256 ≠ 2 ^ bits then .ok ((more + (c + 1) % 256) % 2 ^ 16, r₁.drop bits)
      else spanLoop fuel bits (((more + (c + 1) % 256) % 2 ^ 16 + 2 ^ 16 - 1) % 2 ^ 16)
        (r₁.drop bits) := by
  subst hcode
  rw [spanLoop, hr]
  rfl

/-- A run is put together again from its codes. -/
theorem spanLoop_splitSpan {n span more : ℕ} (hbits : 2 ≤ bits) (hbits' : bits ≤ 7)
    (hspan : 0 < span) (hn : span < n) (hmore : more + span < 2 ^ 16 - 1)
    (h : Holds r bits (splitSpan bits n span ++ codes)) :
    ∃ r', (∀ fuel, n ≤ fuel → spanLoop fuel bits more r = .ok (more + span, r')) ∧
      Holds r' bits codes := by
  have hle : 2 ^ 2 ≤ 2 ^ bits := Nat.pow_le_pow_right (by decide) hbits
  have hge : 2 ^ bits ≤ 2 ^ 7 := Nat.pow_le_pow_right (by decide) hbits'
  induction n generalizing span more r with
  | zero => omega
  | succ n ih =>
      simp only [splitSpan] at h
      by_cases hlong : span > 2 ^ bits - 1
      · rw [if_pos hlong, List.cons_append] at h
        obtain ⟨r₁, hr, hcode, hrest⟩ := h.next (by omega) (by omega)
        have hlast : more + (2 ^ bits - 1) + (span - (2 ^ bits - 1)) < 2 ^ 16 - 1 := by omega
        obtain ⟨r', hloop, hr'⟩ := ih (by omega) (by omega) hlast hrest
        refine ⟨r', fun fuel hfuel => ?_, hr'⟩
        obtain ⟨fuel, rfl⟩ : ∃ m, fuel = m + 1 := ⟨fuel - 1, by omega⟩
        have hthis : (2 ^ bits - 1 + 1) % 256 = 2 ^ bits := by omega
        have hmod : ((more + 2 ^ bits) % 2 ^ 16 + 2 ^ 16 - 1) % 2 ^ 16 = more + (2 ^ bits - 1) := by
          omega
        have hsum : more + (2 ^ bits - 1) + (span - (2 ^ bits - 1)) = more + span := by omega
        have hrest := hloop fuel (by omega)
        rw [hsum] at hrest
        rw [spanLoop_succ hr hcode, hthis, if_neg (not_not.mpr rfl), hmod, hrest]
      · rw [if_neg hlong, List.singleton_append] at h
        obtain ⟨r₁, hr, hcode, hrest⟩ := h.next (by omega) (by omega)
        refine ⟨r₁.drop bits, fun fuel hfuel => ?_, hrest⟩
        obtain ⟨fuel, rfl⟩ : ∃ m, fuel = m + 1 := ⟨fuel - 1, by omega⟩
        have hthis : (span - 1 + 1) % 256 = span := by omega
        rw [spanLoop_succ hr hcode, hthis, if_pos (by omega),
          Nat.mod_eq_of_lt (show more + span < 2 ^ 16 by omega)]

/-- Runs of alternating colours. -/
def alternate (on : Bool) : List ℕ → List (Bool × ℕ)
  | [] => []
  | n :: data => (on, n) :: alternate (!on) data

theorem int8_bits (hbits : 2 ≤ bits) (hbits' : bits ≤ 7) :
    (Int8.ofNat bits).toInt.toNat = bits ∧ Int8.ofNat bits ≠ 1 ∧ Int8.ofNat bits ≠ 0 := by
  obtain rfl | rfl | rfl | rfl | rfl | rfl :
      bits = 2 ∨ bits = 3 ∨ bits = 4 ∨ bits = 5 ∨ bits = 6 ∨ bits = 7 := by omega
  all_goals decide

theorem supplies_spans {on : Bool} {data : List ℕ} (hbits : 2 ≤ bits) (hbits' : bits ≤ 7)
    (hdata : ∀ n ∈ data, 0 < n ∧ n < 2 ^ 16 - 1) (h : Holds r bits (spanCodes bits data)) :
    Supplies (Int8.ofNat bits) on r (alternate on data) := by
  induction data generalizing r on with
  | nil => exact .nil
  | cons n data ih =>
      obtain ⟨hn, hn'⟩ := hdata n (by simp)
      have hcodes : spanCodes bits (n :: data) =
          splitSpan bits (n + 1) n ++ spanCodes bits data := List.flatMap_cons
      rw [hcodes] at h
      obtain ⟨r', hloop, hr'⟩ := @spanLoop_splitSpan _ _ _ _ _ 0 hbits hbits' hn (by omega)
        (by omega) h
      refine @Supplies.cons _ _ _ r' _ _ (n + 1) (fun fuel hfuel => ?_)
        (ih (fun m hm => hdata m (by simp [hm])) hr')
      obtain ⟨hint, hne, -⟩ := int8_bits hbits hbits'
      simp only [nextSpan, hne, if_false, hint, hloop fuel hfuel, Nat.zero_add]
      rfl

end Sunela.Text
