import Sunela.Model.Base32
import Sunela.Verification.Bip39.RoundTrip

/-! # Base32 decodes to what was encoded

A character stands for 5 bits, and both directions pass on the stream of bits of the bytes. -/

namespace Sunela.Base32

open Bits Bip39

/-! ## Characters -/

theorem symbol_mod (n : ℕ) : symbol (n % 32) = symbol n := by
  rw [symbol, symbol, show 31 = 2 ^ 5 - 1 from rfl, Nat.and_two_pow_sub_one_eq_mod,
    Nat.and_two_pow_sub_one_eq_mod, Nat.mod_mod]

theorem symbol_fin : ∀ i : Fin 32, symbol i ∉ ignore ∧ alphabet.idxOf? (symbol i) = some i.val ∧
    symbol i ≠ 0 := by decide +kernel

theorem symbol_notMem (n : ℕ) : symbol n ∉ ignore := by
  rw [← symbol_mod]
  exact (symbol_fin ⟨n % 32, Nat.mod_lt _ (by omega)⟩).1

theorem idxOf_symbol (n : ℕ) : alphabet.idxOf? (symbol n) = some (n % 32) := by
  rw [← symbol_mod]
  exact (symbol_fin ⟨n % 32, Nat.mod_lt _ (by omega)⟩).2.1

theorem symbol_ne_zero (n : ℕ) : symbol n ≠ 0 := by
  rw [← symbol_mod]
  exact (symbol_fin ⟨n % 32, Nat.mod_lt _ (by omega)⟩).2.2

/-! ## Encoding -/

/-- The numbers `is` of characters are the beginning of the bits `src`. Either there is no room
for the next one, or less than 5 bits are left. -/
inductive Coded (src : List Bool) (room : ℕ) (is : List ℕ) : Option (ℕ × ℕ) → Prop where
  | full {rest : List Bool} (len : is.length = room) (bits : stream 5 is ++ rest = src)
      (more : 5 ≤ rest.length) : Coded src room is none
  | done {buf got : ℕ} (fits : is.length ≤ room) (bits : stream 5 is ++ bits got buf = src)
      (few : got < 5) : Coded src room is (some (buf, got))

theorem Coded.cons {src : List Bool} {room n : ℕ} {is : List ℕ} {r : Option (ℕ × ℕ)}
    (h : Coded src room is r) : Coded (bits 5 n ++ src) (room + 1) (n :: is) r := by
  cases h with
  | full len hb more => exact .full (by simp [len]) (by simp [hb]) more
  | done fits hb few => exact .done (by simpa using fits) (by simp [hb]) few

theorem bits_five {got : ℕ} (h : 5 ≤ got) (buf : ℕ) :
    bits got buf = bits 5 (buf >>> (got - 5)) ++ bits (got - 5) buf := by
  have ha := bits_append 5 (got - 5) buf
  rwa [show 5 + (got - 5) = got by omega] at ha

theorem encodeSymbols_coded (buf room got : ℕ) :
    ∃ is, (encodeSymbols buf room got).1 = is.map symbol ∧
      Coded (bits got buf) room is
        ((encodeSymbols buf room got).2.map fun left => (buf, left)) := by
  induction room generalizing got with
  | zero =>
      by_cases hg : 5 ≤ got
      · refine ⟨[], by simp [encodeSymbols, hg], ?_⟩
        simp only [encodeSymbols, hg, if_true, Option.map_none]
        exact .full rfl rfl (by simpa using hg)
      · refine ⟨[], by simp [encodeSymbols, hg], ?_⟩
        simp only [encodeSymbols, hg, if_false, Option.map_some]
        exact .done le_rfl rfl (by omega)
  | succ room ih =>
      by_cases hg : 5 ≤ got
      · obtain ⟨is, hout, hc⟩ := ih (got - 5)
        refine ⟨(buf >>> (got - 5)) :: is, by simp [encodeSymbols, hg, hout], ?_⟩
        simp only [encodeSymbols, hg, if_true]
        rw [bits_five hg]
        exact hc.cons
      · refine ⟨[], by simp [encodeSymbols, hg], ?_⟩
        simp only [encodeSymbols, hg, if_false, Option.map_some]
        exact .done (Nat.zero_le _) rfl (by omega)

/-- The bits in the accumulator, and then those of the next byte. -/
theorem bits_fetch {got : ℕ} (h : got < 5) (buf : ℕ) (b : UInt8) :
    bits (got + 8) ((buf <<< 8 ||| b.toNat) % 2 ^ 16) = bits got buf ++ bits 8 b.toNat := by
  rw [bits_mod (by omega), bits_shiftLeft_or (.inr b.toNat_lt)]

theorem Coded.append {src tail : List Bool} {room n : ℕ} {is js : List ℕ} {r : Option (ℕ × ℕ)}
    {pre : List Bool} (hs : stream 5 is ++ pre = src) (hroom : is.length + n = room)
    (h : Coded (pre ++ tail) n js r) : Coded (src ++ tail) room (is ++ js) r := by
  cases h with
  | full len hb more =>
      exact .full (by rw [List.length_append]; omega)
        (by rw [stream_append, List.append_assoc, hb, ← List.append_assoc, hs]) more
  | done fits hb few =>
      exact .done (by rw [List.length_append]; omega)
        (by rw [stream_append, List.append_assoc, hb, ← List.append_assoc, hs]) few

theorem encodeLoop_coded {resSize : ℕ} {data : Bytes} {buf got : ℕ} {out : Bytes}
    (hg : got < 5) (hout : out.length ≤ resSize) :
    ∃ is, (encodeLoop resSize data buf got out).1 = out ++ is.map symbol ∧
      Coded (bits got buf ++ byteStream data) (resSize - out.length) is
        (encodeLoop resSize data buf got out).2 := by
  induction data generalizing buf got out with
  | nil => exact ⟨[], by simp [encodeLoop], .done (Nat.zero_le _) (by simp) hg⟩
  | cons b data ih =>
      obtain ⟨is, his, hc⟩ :=
        encodeSymbols_coded ((buf <<< 8 ||| b.toNat) % 2 ^ 16) (resSize - out.length) (got + 8)
      rw [bits_fetch hg] at hc
      rw [byteStream_cons, ← List.append_assoc, encodeLoop]
      cases hs : encodeSymbols ((buf <<< 8 ||| b.toNat) % 2 ^ 16) (resSize - out.length)
          (got + 8) with
      | mk more left =>
          rw [hs] at his hc
          obtain rfl : more = is.map symbol := his
          cases left with
          | none =>
              refine ⟨is, rfl, ?_⟩
              cases hc with
              | full len hb more =>
                  exact .full len (by rw [← List.append_assoc, hb])
                    (by rw [List.length_append]; omega)
          | some left =>
              cases hc with
              | done fits hb few =>
                  have hlen : (out ++ is.map symbol).length = out.length + is.length := by
                    rw [List.length_append, List.length_map]
                  obtain ⟨js, hjs, hd⟩ := ih few (by rw [hlen]; omega)
                  refine ⟨is ++ js, by rw [hjs]; simp, ?_⟩
                  exact hd.append hb (by rw [hlen]; omega)

theorem padLoop_eq {room len : ℕ} (h : (8 - len % 8) % 8 ≤ room) :
    padLoop room len = (List.replicate ((8 - len % 8) % 8) 61, true) := by
  induction room generalizing len with
  | zero =>
      have hl : len % 8 = 0 := by omega
      simp [padLoop, hl]
  | succ room ih =>
      by_cases hl : len % 8 = 0
      · simp [padLoop, hl]
      · have hk : (8 - len % 8) % 8 = (8 - (len + 1) % 8) % 8 + 1 := by omega
        rw [padLoop, if_neg hl, ih (by omega), hk]
        rfl

theorem bits_shiftLeft (a b n : ℕ) :
    bits (a + b) (n <<< b) = bits a n ++ List.replicate b false := by
  have h := @bits_shiftLeft_or a b n 0 (.inr (Nat.two_pow_pos b))
  rwa [Nat.or_zero, bits_of_zero] at h

/-- The text of some bytes: characters that stand for their bits, filled up with zeros, and
padding. -/
structure Encodes (data text : Bytes) (is : List ℕ) : Prop where
  text : ∃ pad, text = is.map symbol ++ List.replicate pad 61
  bits : ∃ zeros < 5, stream 5 is = byteStream data ++ List.replicate zeros false

/-- The character for the bits that are left. -/
theorem last_symbol {data : Bytes} {is : List ℕ} {buf got : ℕ}
    (hb : stream 5 is ++ bits got buf = byteStream data) (hg : got < 5) :
    ∃ js, (if got = 0 then is.map symbol else is.map symbol ++ [symbol (buf <<< (5 - got))]) =
        js.map symbol ∧
      ∃ zeros < 5, stream 5 js = byteStream data ++ List.replicate zeros false := by
  by_cases hz : got = 0
  · subst hz
    exact ⟨is, by simp, 0, by omega, by simpa using hb⟩
  · refine ⟨is ++ [buf <<< (5 - got)], by simp [hz], 5 - got, by omega, ?_⟩
    have hlast := bits_shiftLeft got (5 - got) buf
    rw [show got + (5 - got) = 5 by omega] at hlast
    rw [stream_append, stream_cons, stream_nil, List.append_nil, hlast, ← List.append_assoc, hb]

/-- The number of characters is that of the bits, rounded up. -/
theorem length_of_stream {data : Bytes} {is : List ℕ} {zeros : ℕ}
    (h : stream 5 is = byteStream data ++ List.replicate zeros false) :
    5 * is.length = 8 * data.length + zeros := by
  have hlen := congrArg List.length h
  simpa using hlen

/-- The text of some bytes, if there is room for it and the NUL. -/
theorem base32Encode_encodes (data : Bytes) {n : ℕ} (h : base32EncodeSize data.length ≤ n) :
    ∃ text is, base32Encode n data = ((text.length : ℤ), text ++ [0]) ∧
      text.length + 1 = base32EncodeSize data.length ∧ Encodes data text is := by
  obtain ⟨is, his, hc⟩ := @encodeLoop_coded n data 0 0 [] (by omega) (Nat.zero_le _)
  simp only [bits_zero, List.nil_append, List.length_nil, Nat.sub_zero] at his hc
  have hsize : base32EncodeSize data.length = (data.length + 4) / 5 * 8 + 1 := rfl
  cases hr : encodeLoop n data 0 0 [] with
  | mk out r =>
      rw [hr] at his hc
      obtain rfl : out = is.map symbol := his
      cases hc with
      | full len hb more =>
          have hbits := congrArg List.length hb
          simp only [List.length_append, stream_length, byteStream_length] at hbits
          omega
      | done fits hb few =>
          obtain ⟨js, hjs, zeros, hzeros, hbits⟩ := last_symbol hb few
          have hle := length_of_stream hbits
          have hpad : (8 - js.length % 8) % 8 ≤ n - js.length := by omega
          have hlen : (js.map symbol ++ List.replicate ((8 - js.length % 8) % 8) 61).length + 1 =
              base32EncodeSize data.length := by
            simp only [List.length_append, List.length_map, List.length_replicate]
            omega
          have hroom : is.length ≠ n := by
            have hbits := congrArg List.length hb
            simp only [List.length_append, stream_length, byteStream_length, bits_length] at hbits
            omega
          have hne : (js.map symbol ++ List.replicate ((8 - js.length % 8) % 8) 61).length ≠ n := by
            omega
          refine ⟨_, js, ?_, hlen, ⟨_, rfl⟩, zeros, hzeros, hbits⟩
          simp only [base32Encode, hr, hjs, List.length_map, padLoop_eq hpad]
          rw [if_neg hroom, if_neg (by simpa using hne)]

example : base32Encode 17 (asciiBytes "foobar") = (16, asciiBytes "MZXW6YTBOI======" ++ [0]) := by
  decide +kernel

/-- What is written if the bytes have at least as many bits as there is room for: characters for
the first of them. -/
theorem base32Encode_cut {data : Bytes} {n : ℕ} (h : 5 * n ≤ 8 * data.length) :
    ∃ is rest, base32Encode n data = (-1, is.map symbol) ∧ is.length = n ∧
      stream 5 is ++ rest = byteStream data := by
  obtain ⟨is, his, hc⟩ := @encodeLoop_coded n data 0 0 [] (by omega) (Nat.zero_le _)
  simp only [bits_zero, List.nil_append, List.length_nil, Nat.sub_zero] at his hc
  cases hr : encodeLoop n data 0 0 [] with
  | mk out r =>
      rw [hr] at his hc
      obtain rfl : out = is.map symbol := his
      cases hc with
      | full len hb more => exact ⟨is, _, by rw [base32Encode, hr], len, hb⟩
      | @done buf got fits hb few =>
          have hlen : is.length = n := by
            have hbits := congrArg List.length hb
            simp only [List.length_append, stream_length, byteStream_length, bits_length] at hbits
            omega
          refine ⟨is, _, ?_, hlen, hb⟩
          simp only [base32Encode, hr]
          rw [if_pos (by rw [List.length_map, hlen])]

/-! ## Decoding -/

theorem bits_byte {got : ℕ} (h : 7 < got) (n : ℕ) :
    bits 8 (n >>> (got - 8)) ++ bits (got - 8) n = bits got n := by
  have ha := bits_append 8 (got - 8) n
  rw [← ha, show 8 + (got - 8) = got by omega]

/-- Characters decode to their bits, as far as there is room. -/
theorem decodeLoop_symbols {resSize : Option ℕ} {is : List ℕ} {buf got : ℕ} {s out : Bytes}
    {src : List Bool} (hg : got < 8)
    (hsrc : byteStream out ++ bits got buf ++ stream 5 is = src)
    (hroom : ∀ n, resSize = some n → src.length / 8 ≤ n) :
    ∃ buf' got' out', got' < 8 ∧
      decodeLoop resSize (is.map symbol ++ s) buf got out = decodeLoop resSize s buf' got' out' ∧
      byteStream out' ++ bits got' buf' = src := by
  induction is generalizing buf got out with
  | nil => exact ⟨buf, got, out, hg, rfl, by simpa using hsrc⟩
  | cons i is ih =>
      have hbuf : bits (got + 5) ((buf <<< 5 ||| i % 32) % 2 ^ 16) = bits got buf ++ bits 5 i := by
        have hor := @bits_shiftLeft_or got 5 buf (i % 32) (.inr (Nat.mod_lt i (by decide)))
        rw [bits_mod (by omega), hor]
        exact congrArg (bits got buf ++ ·) (bits_mod (le_refl 5) i)
      have hlen := congrArg List.length hsrc
      simp only [List.length_append, byteStream_length, bits_length, stream_length,
        List.length_cons] at hlen
      simp only [List.map_cons, List.cons_append, decodeLoop, symbol_notMem, if_false, idxOf_symbol]
      by_cases hbyte : 7 < got + 5
      · have hne : resSize ≠ some out.length := by
          intro hn
          have hle := hroom _ hn
          omega
        rw [if_pos hbyte, if_neg hne]
        apply ih (by omega)
        rw [← hsrc, byteStream_append, byteStream_cons, byteStream_nil, List.append_nil,
          UInt8.toNat_ofNat', bits_mod le_rfl, List.append_assoc (byteStream out), bits_byte hbyte,
          hbuf, stream_cons]
        simp
      · rw [if_neg hbyte]
        apply ih (by omega)
        rw [← hsrc, hbuf, stream_cons]
        simp

theorem decodeLoop_padding (resSize : Option ℕ) (pad buf got : ℕ) (out : Bytes) :
    decodeLoop resSize (List.replicate pad 61) buf got out =
      decodeLoop resSize [] buf got out := by
  induction pad with
  | zero => rfl
  | succ pad ih =>
      have hmem : (61 : UInt8) ∈ ignore := by decide
      rw [List.replicate_succ, ← ih, decodeLoop, if_pos hmem]

/-- The bits that are left when the text ends are those that have filled up the last character. -/
theorem no_bits {got buf : ℕ} (h : bits got buf = List.replicate got false) :
    buf &&& (2 ^ got - 1) = 0 := by
  rw [Nat.and_two_pow_sub_one_eq_mod]
  apply bits_inj (Nat.mod_lt _ (Nat.two_pow_pos got)) (Nat.two_pow_pos got)
  rw [bits_mod le_rfl, bits_of_zero, h]

theorem Encodes.decodes {data text : Bytes} {is : List ℕ} (h : Encodes data text is)
    {resSize : Option ℕ} (hroom : ∀ n, resSize = some n → data.length ≤ n) :
    decodeLoop resSize text 0 0 [] = ((data.length : ℤ), data) := by
  obtain ⟨⟨pad, rfl⟩, zeros, hzeros, hbits⟩ := h
  obtain ⟨buf, got, out, hgot, hrun, hsrc⟩ :=
    @decodeLoop_symbols resSize is 0 0 (List.replicate pad 61) [] _ (by omega) rfl (by
      intro n hn
      have hn := hroom n hn
      simp only [byteStream_nil, bits_zero, List.nil_append, hbits, List.length_append,
        byteStream_length, List.length_replicate]
      omega)
  simp only [byteStream_nil, bits_zero, List.nil_append, hbits] at hsrc
  have hlen := congrArg List.length hsrc
  simp only [List.length_append, byteStream_length, bits_length, List.length_replicate] at hlen
  obtain rfl : got = zeros := by omega
  obtain ⟨hout, hleft⟩ := List.append_inj hsrc (by
    rw [byteStream_length, byteStream_length]
    omega)
  obtain rfl : out = data := byteStream_inj (by omega) hout
  rw [hrun, decodeLoop_padding, decodeLoop, if_neg]
  rintro ⟨-, hne⟩
  exact hne (no_bits hleft)

theorem Encodes.nulFree {data text : Bytes} {is : List ℕ} (h : Encodes data text is) :
    0 ∉ text := by
  obtain ⟨⟨pad, rfl⟩, -⟩ := h
  simp only [List.mem_append, List.mem_map, List.mem_replicate, not_or, not_exists, not_and]
  exact ⟨fun i _ => symbol_ne_zero i, fun _ => by decide⟩

/-! ## The size of the buffer -/

/-- The value returned is negative, or it is the number of bytes. -/
theorem decodeLoop_value (resSize : Option ℕ) (s : Bytes) (buf got : ℕ) (out : Bytes) :
    (decodeLoop resSize s buf got out).1 = -1 ∨
      (decodeLoop resSize s buf got out).1 = (decodeLoop resSize s buf got out).2.length := by
  induction s generalizing buf got out with
  | nil =>
      rw [decodeLoop]
      split
      · exact .inl rfl
      · exact .inr rfl
  | cons ch s ih =>
      rw [decodeLoop]
      split
      · exact ih buf got out
      · cases alphabet.idxOf? ch with
        | none => exact .inl rfl
        | some c =>
            dsimp only
            split
            · split
              · exact .inl rfl
              · exact ih _ _ _
            · exact ih _ _ _

theorem length_le_decodeLoop (resSize : Option ℕ) (s : Bytes) (buf got : ℕ) (out : Bytes) :
    out.length ≤ (decodeLoop resSize s buf got out).2.length := by
  induction s generalizing buf got out with
  | nil =>
      rw [decodeLoop]
      split <;> exact le_rfl
  | cons ch s ih =>
      rw [decodeLoop]
      split
      · exact ih buf got out
      · cases alphabet.idxOf? ch with
        | none => exact le_rfl
        | some c =>
            dsimp only
            split
            · split
              · exact le_rfl
              · exact Nat.le_trans (by simp) (ih _ _ _)
            · exact ih _ _ _

/-- With a buffer of `n` bytes, the same happens if no more than `n` bytes are decoded without
one. Otherwise decoding fails, and the buffer is full. -/
theorem decodeLoop_limited {n : ℕ} (s : Bytes) (buf got : ℕ) {out : Bytes} (h : out.length ≤ n) :
    if (decodeLoop none s buf got out).2.length ≤ n then
      decodeLoop (some n) s buf got out = decodeLoop none s buf got out
    else
      (decodeLoop (some n) s buf got out).1 = -1 ∧
        (decodeLoop (some n) s buf got out).2.length = n := by
  induction s generalizing buf got out with
  | nil =>
      have hle : (decodeLoop none [] buf got out).2.length ≤ n := by
        rw [decodeLoop]
        split <;> exact h
      rw [if_pos hle]
      rfl
  | cons ch s ih =>
      simp only [decodeLoop]
      by_cases hi : ch ∈ ignore
      · simp only [hi, if_true]
        exact ih buf got h
      · simp only [hi, if_false]
        cases alphabet.idxOf? ch with
        | none =>
            dsimp only
            rw [if_pos h]
        | some c =>
            dsimp only
            by_cases hb : 7 < got + 5
            · simp only [hb, if_true, reduceCtorEq, if_false]
              by_cases hn : n = out.length
              · rw [if_neg, if_pos (congrArg some hn)]
                · exact ⟨rfl, hn.symm⟩
                · have hle := length_le_decodeLoop none s ((buf <<< 5 ||| c) % 2 ^ 16)
                    (got + 5 - 8)
                    (out ++ [UInt8.ofNat (((buf <<< 5 ||| c) % 2 ^ 16) >>> (got + 5 - 8))])
                  rw [List.length_append, List.length_singleton] at hle
                  omega
              · rw [if_neg (fun he => hn (Option.some.inj he))]
                apply ih
                rw [List.length_append, List.length_singleton]
                omega
            · simp only [hb, if_false]
              exact ih _ _ h

theorem base32Decode_eq {n : ℕ} {s : CString}
    (h : (decodeLoop none s.bytes 0 0 []).2.length ≤ n) :
    base32Decode n s = decodeLoop none s.bytes 0 0 [] := by
  have hl := @decodeLoop_limited n s.bytes 0 0 [] (Nat.zero_le n)
  rwa [if_pos h] at hl

theorem base32Decode_full {n : ℕ} {s : CString}
    (h : n < (decodeLoop none s.bytes 0 0 []).2.length) :
    (base32Decode n s).1 = -1 ∧ (base32Decode n s).2.length = n := by
  have hl := @decodeLoop_limited n s.bytes 0 0 [] (Nat.zero_le n)
  rwa [if_neg (Nat.not_le.mpr h)] at hl

/-- Text that has been encoded decodes to the same bytes. Any text decodes to as many bytes as
its size says if there is room for them, and decoding fails within the buffer if there is not. -/
theorem base32_roundTrip (data : Bytes) (s : CString) (n : ℕ) :
    (∃ text : CString,
      base32Encode (base32EncodeSize data.length) data =
          ((base32EncodeSize data.length : ℤ) - 1, text.bytes ++ [0]) ∧
        text.bytes.length + 1 = base32EncodeSize data.length ∧
        ∀ m, data.length ≤ m → base32Decode m text = ((data.length : ℤ), data)) ∧
      (base32DecodeSize s ≤ n → (base32Decode n s).1 = base32DecodeSize s) ∧
      (n < base32DecodeSize s → (base32Decode n s).1 = -1) ∧
      (base32Decode n s).2.length ≤ n := by
  have hvalue := decodeLoop_value none s.bytes 0 0 []
  refine ⟨?_, ?_, ?_, ?_⟩
  · obtain ⟨text, is, henc, hlen, hcodes⟩ := base32Encode_encodes data (Nat.le_refl _)
    refine ⟨⟨text, hcodes.nulFree⟩, ?_, hlen, ?_⟩
    · rw [henc, ← hlen]
      simp
    · intro m hm
      apply hcodes.decodes
      rintro k ⟨rfl⟩
      exact hm
  · intro hle
    by_cases hn : (decodeLoop none s.bytes 0 0 []).2.length ≤ n
    · rw [base32Decode_eq hn]
      rfl
    · rw [(base32Decode_full (Nat.not_le.mp hn)).1]
      rw [base32DecodeSize] at hle ⊢
      omega
  · intro hlt
    rw [base32DecodeSize] at hlt
    exact (base32Decode_full (by omega)).1
  · by_cases hn : (decodeLoop none s.bytes 0 0 []).2.length ≤ n
    · rw [base32Decode_eq hn]
      exact hn
    · exact (base32Decode_full (Nat.not_le.mp hn)).2.le

end Sunela.Base32
