import Sunela.Lib.Bits
import Sunela.Model.Bip39

/-! # Mnemonic codes decode to what was encoded

Both directions pass on a stream of bits. Encoding cuts the bits of the bytes and of the hash
into words, decoding cuts the bits of the words into bytes. -/

namespace Sunela.Bip39

open Bits

def byteStream (b : Bytes) : List Bool := stream 8 (b.map UInt8.toNat)

def wordStream (ws : List UInt16) : List Bool := stream bip39WordBits (ws.map UInt16.toNat)

/-- The bits that are not encoded yet. -/
def remaining (pos : ℕ) (rest : Bytes) : List Bool := (byteStream rest).drop (pos % 8)

@[simp] theorem byteStream_nil : byteStream [] = [] := rfl

@[simp] theorem byteStream_cons (b : UInt8) (rest : Bytes) :
    byteStream (b :: rest) = bits 8 b.toNat ++ byteStream rest := rfl

@[simp] theorem byteStream_append (a b : Bytes) :
    byteStream (a ++ b) = byteStream a ++ byteStream b := by
  simp [byteStream]

@[simp] theorem byteStream_length (b : Bytes) : (byteStream b).length = 8 * b.length := by
  simp [byteStream]

@[simp] theorem wordStream_nil : wordStream [] = [] := rfl

@[simp] theorem wordStream_cons (w : UInt16) (ws : List UInt16) :
    wordStream (w :: ws) = bits 11 w.toNat ++ wordStream ws := rfl

@[simp] theorem wordStream_length (ws : List UInt16) : (wordStream ws).length = 11 * ws.length := by
  simp [wordStream, bip39WordBits]

theorem byteStream_inj {a b : Bytes} (hl : a.length = b.length)
    (h : byteStream a = byteStream b) : a = b := by
  have hbyte : ∀ l : Bytes, ∀ n ∈ l.map UInt8.toNat, n < 2 ^ 8 := by
    intro l n hn
    obtain ⟨x, _, rfl⟩ := List.mem_map.mp hn
    exact x.toNat_lt
  have hmap := stream_inj (hbyte a) (hbyte b) (by simpa using hl) h
  exact List.map_injective_iff.mpr (fun _ _ => UInt8.toNat_inj.mp) hmap

theorem wordStream_inj {a b : List UInt16} (ha : ∀ w ∈ a, w.toNat < 2048)
    (hb : ∀ w ∈ b, w.toNat < 2048) (hl : a.length = b.length)
    (h : wordStream a = wordStream b) : a = b := by
  have hword : ∀ l : List UInt16, (∀ w ∈ l, w.toNat < 2048) →
      ∀ n ∈ l.map UInt16.toNat, n < 2 ^ bip39WordBits := by
    intro l hlt n hn
    obtain ⟨x, hx, rfl⟩ := List.mem_map.mp hn
    exact hlt x hx
  have hmap := stream_inj (hword a ha) (hword b hb) (by simpa using hl) h
  exact List.map_injective_iff.mpr (fun _ _ => UInt16.toNat_inj.mp) hmap

/-! ## Encoding -/

theorem remaining_cons (pos : ℕ) (b : UInt8) (rest : Bytes) :
    remaining pos (b :: rest) = bits (8 - pos % 8) b.toNat ++ byteStream rest := by
  have hpos : pos % 8 ≤ 8 := by omega
  rw [remaining, byteStream_cons, List.drop_append_of_le_length (by simpa using hpos),
    bits_drop hpos]

theorem remaining_length (pos : ℕ) (rest : Bytes) :
    (remaining pos rest).length = 8 * rest.length - pos % 8 := by
  simp [remaining]

theorem bits_masked {w k : ℕ} (h : w ≤ k) (n : ℕ) : bits w (n &&& (2 ^ k - 1)) = bits w n := by
  rw [Nat.and_two_pow_sub_one_eq_mod, bits_mod h]

theorem wordLoop_done (sha : UInt8) (pos buf : ℕ) (rest : Bytes) :
    wordLoop sha pos buf 11 rest = some (buf, pos, rest) := by
  cases rest <;> simp [wordLoop, bip39WordBits]

theorem wordLoop_hash {got : ℕ} (hlt : got < 11) (hw : 11 - got ≤ 8) (sha : UInt8)
    (pos buf : ℕ) :
    wordLoop sha pos buf got [] =
      some ((buf <<< (11 - got) ||| sha.toNat >>> (8 - (11 - got))) % 2 ^ 16, pos, []) := by
  simp [wordLoop, bip39WordBits, hlt, show ¬ 8 < 11 - got by omega]

theorem wordLoop_part {pos got : ℕ} (hlt : got < 11) (h : 11 - got < 8 - pos % 8) (sha b : UInt8)
    (buf : ℕ) (rest : Bytes) :
    wordLoop sha pos buf got (b :: rest) =
      some ((buf <<< (11 - got) |||
        ((b.toNat >>> (8 - pos % 8 - (11 - got))) &&& (2 ^ (11 - got) - 1))) % 2 ^ 16,
        pos + (11 - got), b :: rest) := by
  rw [wordLoop]
  simp only [bip39WordBits, hlt, h, if_true]

theorem wordLoop_byte {pos got : ℕ} (hlt : got < 11) (h : ¬ 11 - got < 8 - pos % 8)
    (sha b : UInt8) (buf : ℕ) (rest : Bytes) :
    wordLoop sha pos buf got (b :: rest) =
      wordLoop sha (pos + (8 - pos % 8))
        ((buf <<< (8 - pos % 8) ||| (b.toNat &&& (2 ^ (11 - got) - 1))) % 2 ^ 16)
        (got + (8 - pos % 8)) rest := by
  rw [wordLoop]
  simp only [bip39WordBits, hlt, h, if_true, if_false]

/-- The last bits of a word, shifted to the end of the number. -/
theorem bits_filled {got buf k : ℕ} (hg : got ≤ 11) (hk : k < 2 ^ (11 - got)) :
    bits 11 ((buf <<< (11 - got) ||| k) % 2 ^ 16) = bits got buf ++ bits (11 - got) k := by
  rw [bits_mod (by omega)]
  have hor := @bits_shiftLeft_or got (11 - got) buf k (.inr hk)
  rwa [show got + (11 - got) = 11 by omega] at hor

theorem hash_lt (sha : UInt8) {want : ℕ} (hw : want ≤ 8) :
    sha.toNat >>> (8 - want) < 2 ^ want := by
  rw [Nat.shiftRight_eq_div_pow]
  apply Nat.div_lt_of_lt_mul
  rw [← Nat.pow_add, show 8 - want + want = 8 by omega]
  exact sha.toNat_lt

/-- One word consists of the next bits of the bytes, and then of those of the hash. -/
theorem wordLoop_bits {sha : UInt8} {pos buf got : ℕ} {rest : Bytes} (hg : got ≤ 11)
    (ha : got = 0 ∨ pos % 8 = 0) (he : 11 ≤ got + (remaining pos rest).length + 8) :
    ∃ buf' pos' rest', wordLoop sha pos buf got rest = some (buf', pos', rest') ∧
      bits 11 buf' =
        bits got buf ++ (remaining pos rest ++ bits 8 sha.toNat).take (11 - got) ∧
      remaining pos' rest' = (remaining pos rest).drop (11 - got) := by
  rcases Nat.lt_or_eq_of_le hg with hlt | rfl
  case inr => exact ⟨buf, pos, rest, wordLoop_done sha pos buf rest, by simp, by simp⟩
  induction rest generalizing pos buf got with
  | nil =>
      have hw : 11 - got ≤ 8 := by
        simp [remaining] at he
        omega
      refine ⟨_, _, _, wordLoop_hash hlt hw sha pos buf, ?_, by simp [remaining]⟩
      rw [bits_filled hg (hash_lt sha hw)]
      simp [remaining, bits_take hw]
  | cons b rest ih =>
      rw [remaining_cons] at he ⊢
      by_cases hleft : 11 - got < 8 - pos % 8
      · refine ⟨_, _, _, wordLoop_part hlt hleft sha b buf rest, ?_, ?_⟩
        · have hk : b.toNat >>> (8 - pos % 8 - (11 - got)) &&& (2 ^ (11 - got) - 1) <
              2 ^ (11 - got) := by
            rw [Nat.and_two_pow_sub_one_eq_mod]
            exact Nat.mod_lt _ (Nat.two_pow_pos _)
          rw [bits_filled hg hk, bits_masked le_rfl, List.append_assoc,
            List.take_append_of_le_length (by simp; omega), bits_take hleft.le]
        · have hmod : (pos + (11 - got)) % 8 = pos % 8 + (11 - got) := by omega
          rw [remaining_cons, hmod, List.drop_append_of_le_length (by simp; omega),
            bits_drop hleft.le, Nat.sub_sub]
      · have haligned : (pos + (8 - pos % 8)) % 8 = 0 := by omega
        have hrem : remaining (pos + (8 - pos % 8)) rest = byteStream rest := by
          simp [remaining, haligned]
        have hgot : got + (8 - pos % 8) ≤ 11 := by omega
        have hsmall : got = 0 ∨ b.toNat &&& (2 ^ (11 - got) - 1) < 2 ^ (8 - pos % 8) := by
          rcases ha with h | h
          · exact .inl h
          · rw [h]
            exact .inr (Nat.lt_of_le_of_lt Nat.and_le_left b.toNat_lt)
        have hfirst : bits (got + (8 - pos % 8))
            ((buf <<< (8 - pos % 8) ||| (b.toNat &&& (2 ^ (11 - got) - 1))) % 2 ^ 16) =
              bits got buf ++ bits (8 - pos % 8) b.toNat := by
          rw [bits_mod (by omega), bits_shiftLeft_or hsmall, bits_masked (by omega)]
        have hnext : ∃ buf' pos' rest', wordLoop sha pos buf got (b :: rest) =
              some (buf', pos', rest') ∧
            bits 11 buf' = bits got buf ++ bits (8 - pos % 8) b.toNat ++
              (byteStream rest ++ bits 8 sha.toNat).take (11 - (got + (8 - pos % 8))) ∧
            remaining pos' rest' = (byteStream rest).drop (11 - (got + (8 - pos % 8))) := by
          rw [wordLoop_byte hlt hleft, ← hfirst, ← hrem]
          rcases Nat.lt_or_eq_of_le hgot with hmore | hdone
          · refine ih hgot (.inr haligned) ?_ hmore
            simp [hrem] at he ⊢
            omega
          · rw [hdone]
            exact ⟨_, _, _, wordLoop_done sha _ _ rest, by simp, by simp⟩
        have hlen : 11 - got =
            (bits (8 - pos % 8) b.toNat).length + (11 - (got + (8 - pos % 8))) := by
          rw [bits_length]
          omega
        obtain ⟨buf', pos', rest', hrun, hbits, hrest⟩ := hnext
        refine ⟨buf', pos', rest', hrun, ?_, ?_⟩
        · rw [hbits, hlen, List.append_assoc, List.append_assoc, List.take_length_add_append]
        · rw [hrest, hlen, List.drop_length_add_append]

/-- A call that finds bytes left returns the word of the next 11 bits. -/
theorem bip39NextWord_bits {b : Bip39Enc} (hr : b.rest ≠ [])
    (he : 3 ≤ (remaining b.pos b.rest).length) :
    ∃ n b', bip39NextWord b = some (some n, b') ∧ n.toNat < 2048 ∧ b'.sha = b.sha ∧
      bits 11 n.toNat = (remaining b.pos b.rest ++ bits 8 b.sha.toNat).take 11 ∧
      remaining b'.pos b'.rest = (remaining b.pos b.rest).drop 11 := by
  obtain ⟨buf, pos, rest, hrun, hbits, hrest⟩ :=
    @wordLoop_bits b.sha b.pos 0 0 b.rest (by omega) (.inl rfl) (by omega)
  have hlt : buf &&& (2 ^ bip39WordBits - 1) < 2048 :=
    Nat.lt_of_le_of_lt Nat.and_le_right (by decide)
  have hn : (UInt16.ofNat (buf &&& (2 ^ bip39WordBits - 1))).toNat =
      buf &&& (2 ^ bip39WordBits - 1) := UInt16.toNat_ofNat_of_lt' (Nat.lt_trans hlt (by decide))
  refine ⟨_, { b with pos, rest }, ?_, by rw [hn]; exact hlt, rfl, ?_, hrest⟩
  · unfold bip39NextWord
    split
    · next h => exact absurd h hr
    · simp [hrun]
  · rw [hn, bits_masked (by decide), hbits]
    simp

/-- The words of the bytes that are left, if the hash fills up the last of them. -/
theorem nextWords_bits {fuel : ℕ} {b : Bip39Enc} (hf : b.rest.length < fuel)
    (he : (remaining b.pos b.rest).length % 11 = 0 ∨
      3 ≤ (remaining b.pos b.rest).length % 11) :
    ∃ ws, nextWords fuel b = some ws ∧ (∀ w ∈ ws, w.toNat < 2048) ∧
      ws.length = ((remaining b.pos b.rest).length + 10) / 11 ∧
      wordStream ws =
        (remaining b.pos b.rest ++ bits 8 b.sha.toNat).take (11 * ws.length) := by
  induction fuel generalizing b with
  | zero => simp at hf
  | succ fuel ih =>
      by_cases hr : b.rest = []
      · refine ⟨[], ?_, by simp, ?_, by simp⟩
        · simp [nextWords, bip39NextWord, hr]
        · simp [remaining, hr]
      · have hpos : 0 < b.rest.length := List.length_pos_iff.mpr hr
        have hlen := remaining_length b.pos b.rest
        obtain ⟨n, b', hrun, hlt, hsha, hbits, hrest⟩ := bip39NextWord_bits hr (by omega)
        have hlen' := remaining_length b'.pos b'.rest
        have hdrop : (remaining b'.pos b'.rest).length =
            (remaining b.pos b.rest).length - 11 := by
          rw [hrest, List.length_drop]
        obtain ⟨ws, hws, hall, hcount, hstream⟩ := ih (b := b') (by omega) (by omega)
        refine ⟨n :: ws, ?_, ?_, ?_, ?_⟩
        · simp [nextWords, hrun, hws]
        · simpa using ⟨hlt, hall⟩
        · rw [List.length_cons, hcount]
          omega
        · rw [wordStream_cons, hbits, hstream, hsha, hrest, List.length_cons]
          by_cases hfull : 11 ≤ (remaining b.pos b.rest).length
          · rw [← List.drop_append_of_le_length hfull, ← List.take_add]
            congr 1
            omega
          · have hend : ws.length = 0 := by omega
            simp [hend]

/-- Encoding writes the bits of the bytes and then the first bits of the hash. -/
theorem encodeWords_bits (sha256 : Bytes → Digest) {data : Bytes}
    (hd : data.length ∈ [16, 20, 24, 28, 32]) :
    ∃ ws, encodeWords sha256 data = some ws ∧ (∀ w ∈ ws, w.toNat < 2048) ∧
      4 * ws.length = 3 * data.length ∧
      wordStream ws =
        byteStream data ++
          (bits 8 (bip39Encode sha256 data).sha.toNat).take (ws.length / 3) := by
  have hrem : remaining 0 data = byteStream data := by simp [remaining]
  have hlen : (remaining 0 data).length = 8 * data.length := by simp [hrem]
  have hd' : data.length = 16 ∨ data.length = 20 ∨ data.length = 24 ∨ data.length = 28 ∨
      data.length = 32 := by simpa using hd
  obtain ⟨ws, hrun, hall, hcount, hstream⟩ :=
    @nextWords_bits (data.length + 1) (bip39Encode sha256 data) (Nat.lt_succ_self _)
      (by simp only [bip39Encode]; omega)
  simp only [bip39Encode] at hcount hstream
  have hthird : 11 * ws.length = (byteStream data).length + ws.length / 3 := by
    rw [byteStream_length]
    omega
  refine ⟨ws, hrun, hall, by omega, ?_⟩
  rw [hstream, hrem, hthird, List.take_length_add_append]
  rfl

/-! ## Decoding -/

/-- The inner loop turns the first bits that are pending into bytes. -/
theorem drain_bits (pending room cnt : ℕ) :
    (drain pending room cnt).1.length = min room (cnt / 8) ∧
      (drain pending room cnt).2 = cnt - 8 * min room (cnt / 8) ∧
      bits cnt pending =
        byteStream (drain pending room cnt).1 ++ bits (drain pending room cnt).2 pending := by
  induction room generalizing cnt with
  | zero => simp [drain]
  | succ room ih =>
      by_cases h : 8 ≤ cnt
      · obtain ⟨hlen, hleft, hbits⟩ := ih (cnt - 8)
        have hcnt : cnt = 8 + (cnt - 8) := by omega
        have happ := bits_append 8 (cnt - 8) pending
        rw [← hcnt] at happ
        simp only [drain, h, if_true, List.length_cons, byteStream_cons]
        refine ⟨by omega, by omega, ?_⟩
        rw [happ, hbits, UInt8.toNat_ofNat', bits_mod le_rfl, List.append_assoc]
      · have hz : cnt / 8 = 0 := by omega
        simp [drain, h, hz]

/-- The bytes written and the bits that are pending are those of the words read. -/
theorem decodeLoop_bits {size cs : ℕ} {ws : List UInt16} {pending cnt : ℕ} {buf : Bytes}
    (hw : ∀ w ∈ ws, w.toNat < 2048) (hcs : cs ≤ 8)
    (htotal : cnt + 8 * buf.length + 11 * ws.length = 8 * size + cs)
    (hbuf : buf.length ≤ size) (hcnt : buf.length < size → cnt < 8) :
    ∃ pending' buf', decodeLoop size ws pending cnt buf = (pending', cs, buf') ∧
      buf'.length = size ∧
      byteStream buf' ++ bits cs pending' =
        byteStream buf ++ bits cnt pending ++ wordStream ws := by
  induction ws generalizing pending cnt buf with
  | nil =>
      have hfull : buf.length = size := by
        simp at htotal
        omega
      have hc : cnt = cs := by
        simp at htotal
        omega
      exact ⟨pending, buf, by simp [decodeLoop, hc], hfull, by simp [hc]⟩
  | cons w ws ih =>
      have hlt : w.toNat < 2 ^ 11 := hw w (by simp)
      have hsmall : cnt ≤ 8 := by
        simp only [List.length_cons] at htotal
        omega
      have hmore : bits (cnt + 11) ((pending <<< 11 ||| w.toNat) % 2 ^ 32) =
          bits cnt pending ++ bits 11 w.toNat := by
        rw [bits_mod (by omega), bits_shiftLeft_or (.inr hlt)]
      obtain ⟨hlen, hleft, hbits⟩ :=
        drain_bits ((pending <<< 11 ||| w.toNat) % 2 ^ 32) (size - buf.length) (cnt + 11)
      rcases hd : drain ((pending <<< 11 ||| w.toNat) % 2 ^ 32) (size - buf.length) (cnt + 11)
        with ⟨out, left⟩
      simp only [hd] at hlen hleft hbits
      simp only [List.length_cons] at htotal
      obtain ⟨pending', buf', hrun, hsize, hstream⟩ :=
        @ih ((pending <<< 11 ||| w.toNat) % 2 ^ 32) left (buf ++ out)
          (fun x hx => hw x (by simp [hx])) (by rw [List.length_append]; omega)
          (by rw [List.length_append]; omega) (by rw [List.length_append]; omega)
      refine ⟨pending', buf', ?_, hsize, ?_⟩
      · simp only [decodeLoop, bip39WordBits, hd]
        exact hrun
      · rw [hstream, byteStream_append, wordStream_cons, List.append_assoc (byteStream buf),
          ← hbits, hmore]
        simp

/-- The bits that are left over are compared with the first bits of the hash. -/
theorem checksum_iff {cs pending : ℕ} (hcs : cs ≤ 8) (sha : UInt8) :
    pending &&& (2 ^ cs - 1) = sha.toNat >>> (8 - cs) ↔
      bits cs pending = (bits 8 sha.toNat).take cs := by
  rw [Nat.and_two_pow_sub_one_eq_mod, bits_take hcs]
  constructor
  · intro h
    rw [← h, bits_mod le_rfl]
  · intro h
    refine bits_inj (Nat.mod_lt _ (Nat.two_pow_pos _)) (hash_lt sha hcs) ?_
    rw [bits_mod le_rfl, h]

/-- Decoding writes the first bits of the words, and succeeds if the others are the first bits
of the hash. -/
theorem bip39Decode_bits (sha256 : Bytes → Digest) {bytes : ℕ} {ws : List UInt16}
    (hn : ws.length ∈ [12, 15, 18, 21, 24]) (hw : ∀ w ∈ ws, w.toNat < 2048)
    (hroom : 32 * ws.length ≤ 3 * (bytes * 8 % 2 ^ 32)) :
    ∃ buf rest, 4 * ws.length = 3 * buf.length ∧ rest.length = ws.length / 3 ∧
      wordStream ws = byteStream buf ++ rest ∧
      bip39Decode sha256 bytes ws =
        some (if rest = (bits 8 (sha256 buf)[0].toNat).take (ws.length / 3)
          then (buf.length : ℤ) else bip39DecodeChecksum, buf) := by
  have hn' : ws.length = 12 ∨ ws.length = 15 ∨ ws.length = 18 ∨ ws.length = 21 ∨
      ws.length = 24 := by simpa using hn
  obtain ⟨pending, buf, hrun, hsize, hstream⟩ :=
    @decodeLoop_bits ((10 * ws.length + 2 * (ws.length / 3)) / 8) (ws.length / 3) ws 0 0 [] hw
      (by omega) (by simp; omega) (by simp) (by simp)
  refine ⟨buf, bits (ws.length / 3) pending, by omega, by simp, by simpa using hstream.symm, ?_⟩
  have hfits : ¬ bytes * 8 % 2 ^ 32 < 10 * ws.length + 2 * (ws.length / 3) := by omega
  simp only [bip39Decode, hn, if_true, hfits, if_false, hrun, hsize, ne_eq, not_true_eq_false,
    or_self, checksum_iff (show ws.length / 3 ≤ 8 by omega)]
  split <;> rfl

/-! ## Both directions -/

/-- What was encoded is decoded again, and decoding succeeds for exactly those words that the
bytes written are encoded as. There has to be room for the bytes. -/
theorem bip39Decode_inverse (sha256 : Bytes → Digest) :
    (∀ (data : Bytes) (bytes : ℕ), data.length ∈ [16, 20, 24, 28, 32] →
      8 * data.length ≤ bytes * 8 % 2 ^ 32 →
      ∃ ws, encodeWords sha256 data = some ws ∧ 4 * ws.length = 3 * data.length ∧
        bip39Decode sha256 bytes ws = some ((data.length : ℤ), data)) ∧
    (∀ (ws : List UInt16) (bytes : ℕ), ws.length ∈ [12, 15, 18, 21, 24] →
      (∀ w ∈ ws, w.toNat < 2048) → 32 * ws.length ≤ 3 * (bytes * 8 % 2 ^ 32) →
      ∃ ret buf, bip39Decode sha256 bytes ws = some (ret, buf) ∧
        (0 ≤ ret ↔ encodeWords sha256 buf = some ws)) := by
  constructor
  · intro data bytes hd hroom
    have hd' : data.length = 16 ∨ data.length = 20 ∨ data.length = 24 ∨ data.length = 28 ∨
        data.length = 32 := by simpa using hd
    obtain ⟨ws, hrun, hall, hcount, hstream⟩ := encodeWords_bits sha256 hd
    simp only [bip39Encode] at hstream
    have hn : ws.length ∈ [12, 15, 18, 21, 24] := by
      simp
      omega
    obtain ⟨buf, rest, hlen, hrest, hcut, hdec⟩ :=
      @bip39Decode_bits sha256 bytes _ hn hall (by omega)
    obtain ⟨hbytes, hrest⟩ := List.append_inj (hstream.symm.trans hcut) (by simp; omega)
    obtain rfl : data = buf := byteStream_inj (by omega) hbytes
    exact ⟨ws, hrun, hcount, by rw [hdec, hrest, if_pos rfl]⟩
  · intro ws bytes hn hw hroom
    have hn' : ws.length = 12 ∨ ws.length = 15 ∨ ws.length = 18 ∨ ws.length = 21 ∨
        ws.length = 24 := by simpa using hn
    obtain ⟨buf, rest, hlen, hrest, hcut, hdec⟩ := bip39Decode_bits sha256 hn hw hroom
    obtain ⟨ws', hrun, hall, hcount, hstream⟩ :=
      @encodeWords_bits sha256 buf (by simp; omega)
    simp only [bip39Encode] at hstream
    have hsame : ws'.length = ws.length := by omega
    refine ⟨_, buf, hdec, ?_⟩
    rw [hrun]
    constructor
    · intro hret
      split at hret
      · next h =>
          rw [wordStream_inj hall hw hsame (by rw [hstream, hcut, h, hsame])]
      · exact absurd hret (by decide)
    · intro h
      obtain rfl : ws' = ws := Option.some.inj h
      obtain ⟨-, hr⟩ := List.append_inj (hcut.symm.trans hstream) rfl
      rw [if_pos hr]
      omega

theorem bip39Decode_inverse_zero :
    (∃ ws, encodeWords (fun _ => .replicate 32 0) (List.replicate 16 0) = some ws ∧
      4 * ws.length = 3 * 16 ∧
      bip39Decode (fun _ => .replicate 32 0) 32 ws = some (16, List.replicate 16 0)) ∧
    ∃ ret buf,
      bip39Decode (fun _ => .replicate 32 0) 32 (List.replicate 12 7) = some (ret, buf) ∧
        (0 ≤ ret ↔
          encodeWords (fun _ => .replicate 32 0) buf = some (List.replicate 12 7)) :=
  ⟨(bip39Decode_inverse _).1 (List.replicate 16 0) 32 (by decide) (by decide),
    (bip39Decode_inverse _).2 (List.replicate 12 7) 32 (by decide)
      (fun w hw => by rw [List.eq_of_mem_replicate hw]; decide) (by decide)⟩

end Sunela.Bip39
