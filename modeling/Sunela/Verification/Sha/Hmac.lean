import Sunela.Model.Hotp
import Sunela.Verification.Sha.Padding

/-! # Codes are those of the specification

HMAC as RFC 2104 has it and the truncation of RFC 4226, over the hash function that the
accelerator makes of its compression function. -/

namespace Sunela.Sha

open Bits Padding Bip39

/-! ## Hash function -/

variable {σ : Type}

/-- An accelerator whose state is `iv` before a new hash, and with `f` for another block. -/
def accelerator (f : σ → Block → σ) (iv : σ) (hashI : σ → ℕ → UInt32) (triggers : List Trigger) :
    ℕ → UInt32 :=
  hashI (triggers.foldl (fun s t => f (if t.hashSel then s else iv) t.block) iv)

/-- The hash of a message that is padded and cut into blocks. -/
def Digest (f : σ → Block → σ) (iv : σ) (hashI : σ → ℕ → UInt32) (m d : Bytes) : Prop :=
  ∃ (blocks : List Block) (zeros : ℕ),
    Padded (byteStream m) (byteStream (blocks.flatMap Vector.toList)) zeros ∧
      d = result (fun _ => hashI (blocks.foldl f iv)) [] sha1HashBytes

variable {f : σ → Block → σ} {iv : σ} {hashI : σ → ℕ → UInt32} {before : List Trigger}
  {blocks blocks' : List Block} {m d d' : Bytes} {s s' : Driver}

theorem foldl_triggersOf (start : σ) (h : blocks ≠ []) :
    (triggersOf blocks).foldl (fun s t => f (if t.hashSel then s else iv) t.block) start =
      blocks.foldl f iv := by
  induction blocks using List.reverseRecOn with
  | nil => exact absurd rfl h
  | append_singleton blocks b ih =>
      rw [triggersOf_append, List.foldl_append, List.foldl_append]
      by_cases hnil : blocks = []
      · subst hnil
        simp
      · simp [ih hnil, hnil]

theorem accelerator_triggersOf (h : blocks ≠ []) :
    accelerator f iv hashI (before ++ triggersOf blocks) = hashI (blocks.foldl f iv) := by
  rw [accelerator, List.foldl_append, foldl_triggersOf _ h]

theorem shaEnd_result {hashI : List Trigger → ℕ → UInt32} {bytes : ℕ}
    (h : shaEnd hashI bytes s = some (d, s')) : d = result hashI s'.triggers bytes := by
  simp only [shaEnd, Option.bind_eq_bind, Option.bind_eq_some_iff] at h
  obtain ⟨s₁, -, s₂, -, s₃, -, h⟩ := h
  split at h
  · cases h
  · obtain ⟨rfl, rfl⟩ := Prod.mk.inj (Option.some.inj h)
    rfl

theorem flatMap_inj (h : blocks.flatMap Vector.toList = blocks'.flatMap Vector.toList) :
    blocks = blocks' := by
  induction blocks generalizing blocks' with
  | nil =>
      have hlen := congrArg List.length h
      rw [flatMap_length, flatMap_length] at hlen
      rw [List.length_nil] at hlen
      exact (List.length_eq_zero_iff.mp (by omega)).symm
  | cons b blocks ih =>
      cases blocks' with
      | nil =>
          have hlen := congrArg List.length h
          rw [flatMap_length, flatMap_length] at hlen
          simp at hlen
      | cons b' blocks' =>
          rw [List.flatMap_cons, List.flatMap_cons] at h
          obtain ⟨hb, hrest⟩ := List.append_inj h (by simp)
          rw [Vector.toList_inj.mp hb, ih hrest]

/-- There is only one way to pad a message. -/
theorem Digest.unique (h : Digest f iv hashI m d) (h' : Digest f iv hashI m d') : d = d' := by
  obtain ⟨blocks, zeros, hpad, rfl⟩ := h
  obtain ⟨blocks', zeros', hpad', rfl⟩ := h'
  have hzeros : zeros = zeros' := hpad.least.unique hpad'.least
  have hbits : byteStream (blocks.flatMap Vector.toList) =
      byteStream (blocks'.flatMap Vector.toList) := by
    rw [hpad.bits, hpad'.bits, hzeros]
  have hlen := congrArg List.length hbits
  rw [byteStream_length, byteStream_length] at hlen
  rw [flatMap_inj (byteStream_inj (by omega) hbits)]

theorem Digest.length (h : Digest f iv hashI m d) : d.length = sha1HashBytes := by
  obtain ⟨blocks, zeros, -, rfl⟩ := h
  rw [result, List.length_map, List.length_range]

/-- What `sha1_end` returns is the hash of the bytes hashed since `sha1_begin`. -/
theorem Hashed.digest (h : Hashed before m s) :
    ∃ d s', sha1End (accelerator f iv hashI) s = some (d, s') ∧ Digest f iv hashI m d := by
  obtain ⟨d, s', blocks, zeros, hs', htriggers, hpad⟩ :=
    h.shaEnd (accelerator f iv hashI) sha1HashBytes
  have hne : blocks ≠ [] := by
    rintro rfl
    have hbits := congrArg List.length hpad.bits
    simp at hbits
  have hd := shaEnd_result hs'
  rw [result, htriggers, accelerator_triggersOf hne] at hd
  exact ⟨d, s', hs', blocks, zeros, hpad, hd⟩

/-! ## HMAC -/

/-- The keyed hash of RFC 2104, for a hash function that works on blocks of `size` bytes. -/
def hmac (hash : Bytes → Bytes) (size : ℕ) (k text : Bytes) : Bytes :=
  let k := if k.length > size then hash k else k
  let k := k ++ List.replicate (size - k.length) 0
  hash (k.map (· ^^^ 0x5c) ++ hash (k.map (· ^^^ 0x36) ++ text))

/-- A hash function is computed in parts, whatever has been hashed before. -/
theorem digest_run {hash : Bytes → Bytes} (hh : ∀ m, Digest f iv hashI m (hash m))
    (m₁ m₂ : Bytes) (s : Driver) :
    ∃ s₁ s₂ s₃, sha1Hash m₁ (sha1Begin s) = some s₁ ∧ sha1Hash m₂ s₁ = some s₂ ∧
      sha1End (accelerator f iv hashI) s₂ = some (hash (m₁ ++ m₂), s₃) := by
  obtain ⟨s₁, hs₁, h₁⟩ := (shaBegin_hashed modeSha1 s).sha1Hash m₁
  obtain ⟨s₂, hs₂, h₂⟩ := h₁.sha1Hash m₂
  obtain ⟨d, s₃, hs₃, hd⟩ := @Hashed.digest _ f iv hashI _ _ _ h₂
  obtain rfl := hd.unique (hh _)
  exact ⟨s₁, s₂, s₃, hs₁, hs₂, hs₃⟩

theorem sha1Hash_nil (h : sha1Hash [] s = some s') : s' = s := by
  unfold sha1Hash at h
  split at h
  · cases h
  · simp only [List.length_nil, hashLoop, if_true, Option.some.injEq] at h
    rw [← h]
    simp

/-- The two hashes of HMAC, once there is a key of one block. -/
theorem hmac_runs {hash : Bytes → Bytes} (hh : ∀ m, Digest f iv hashI m (hash m))
    (key c : Bytes) (s : Driver) :
    ∃ s₁ s₂ s₃ s₄ s₅ s₆, sha1Hash (key.map (· ^^^ 0x36)) (sha1Begin s) = some s₁ ∧
      sha1Hash c s₁ = some s₂ ∧
      sha1End (accelerator f iv hashI) s₂ = some (hash (key.map (· ^^^ 0x36) ++ c), s₃) ∧
      sha1Hash (key.map (· ^^^ 0x5c)) (sha1Begin s₃) = some s₄ ∧
      sha1Hash (hash (key.map (· ^^^ 0x36) ++ c)) s₄ = some s₅ ∧
      sha1End (accelerator f iv hashI) s₅ =
        some (hash (key.map (· ^^^ 0x5c) ++ hash (key.map (· ^^^ 0x36) ++ c)), s₆) := by
  obtain ⟨s₁, s₂, s₃, h₁, h₂, h₃⟩ := digest_run hh (key.map (· ^^^ 0x36)) c s
  obtain ⟨s₄, s₅, s₆, h₄, h₅, h₆⟩ := digest_run hh (key.map (· ^^^ 0x5c))
    (hash (key.map (· ^^^ 0x36) ++ c)) s₃
  exact ⟨s₁, s₂, s₃, s₄, s₅, s₆, h₁, h₂, h₃, h₄, h₅, h₆⟩

theorem hmacSha1_run {hash : Bytes → Bytes} (hh : ∀ m, Digest f iv hashI m (hash m))
    (k c : Bytes) (s : Driver) :
    ∃ s', hmacSha1 (accelerator f iv hashI) k c s = some (hmac hash sha1BlockBytes k c, s') := by
  by_cases hk : k.length > sha1BlockBytes
  · obtain ⟨s₁, s₂, s₃, h₁, h₂, h₃⟩ := digest_run hh k [] s
    obtain rfl := sha1Hash_nil h₂
    rw [List.append_nil] at h₃
    obtain ⟨t₁, t₂, t₃, t₄, t₅, t₆, hs⟩ :=
      hmac_runs hh (hash k ++ List.replicate (sha1BlockBytes - (hash k).length) 0) c s₃
    obtain ⟨ht₁, ht₂, ht₃, ht₄, ht₅, ht₆⟩ := hs
    refine ⟨t₆, ?_⟩
    simp only [hmacSha1, hmac, if_pos hk, Option.bind_eq_bind, h₁, h₃, ht₁, ht₂, ht₃, ht₄, ht₅,
      ht₆, Option.bind_some]
  · obtain ⟨t₁, t₂, t₃, t₄, t₅, t₆, hs⟩ :=
      hmac_runs hh (k ++ List.replicate (sha1BlockBytes - k.length) 0) c s
    obtain ⟨ht₁, ht₂, ht₃, ht₄, ht₅, ht₆⟩ := hs
    refine ⟨t₆, ?_⟩
    simp only [hmacSha1, hmac, if_neg hk, Option.bind_eq_bind, ht₁, ht₂, ht₃, ht₄, ht₅, ht₆,
      Option.bind_some]

/-! ## Codes -/

/-- The last 31 bits of the four bytes of a hash that the low bits of its last byte choose, as
RFC 4226 has them. -/
def Truncated (hash : Bytes) (code : UInt32) : Prop :=
  ∃ last, hash[19]? = some last ∧
    ((hash.drop (last.toNat % 16)).take 4).length = 4 ∧
    bits 32 code.toNat =
      false :: (byteStream ((hash.drop (last.toNat % 16)).take 4)).drop 1

theorem byte_shift (b : UInt8) {k : UInt32} {n : ℕ} (hk : k.toNat = n) (hn : n ≤ 24) :
    (b.toUInt32 <<< k).toNat = b.toNat <<< n := by
  have hb : b.toNat < 2 ^ 8 := b.toNat_lt
  rw [UInt32.toNat_shiftLeft, hk, Nat.mod_eq_of_lt (show n < 32 by omega), UInt8.toNat_toUInt32,
    Nat.shiftLeft_eq]
  apply Nat.mod_eq_of_lt
  calc b.toNat * 2 ^ n < 2 ^ 8 * 2 ^ n := Nat.mul_lt_mul_of_pos_right hb (Nat.two_pow_pos n)
    _ ≤ 2 ^ 8 * 2 ^ 24 := Nat.mul_le_mul_left _ (Nat.pow_le_pow_right Nat.two_pos hn)
    _ = 2 ^ 32 := rfl

/-- Four bytes, the most significant one first. -/
theorem bits_word (a b c d : UInt8) :
    bits 32 (a.toUInt32 <<< 24 ||| b.toUInt32 <<< 16 ||| c.toUInt32 <<< 8 ||| d.toUInt32).toNat =
      byteStream [a, b, c, d] := by
  have hword : (a.toUInt32 <<< 24 ||| b.toUInt32 <<< 16 ||| c.toUInt32 <<< 8 |||
      d.toUInt32).toNat =
      (((a.toNat <<< 8 ||| b.toNat) <<< 8 ||| c.toNat) <<< 8 ||| d.toNat) := by
    rw [UInt32.toNat_or, UInt32.toNat_or, UInt32.toNat_or, byte_shift a (n := 24) rfl (by omega),
      byte_shift b (n := 16) rfl (by omega), byte_shift c (n := 8) rfl (by omega),
      UInt8.toNat_toUInt32]
    simp only [Nat.shiftLeft_or_distrib, ← Nat.shiftLeft_add]
  rw [hword, bits_shiftLeft_or (a := 24) (b := 8) (.inr d.toNat_lt),
    bits_shiftLeft_or (a := 16) (b := 8) (.inr c.toNat_lt),
    bits_shiftLeft_or (a := 8) (b := 8) (.inr b.toNat_lt)]
  simp

theorem bits_and_mask (b : UInt8) :
    bits 8 (b &&& 0x7f).toNat = false :: (bits 8 b.toNat).drop 1 := by
  have hand : (b &&& 0x7f).toNat = b.toNat % 2 ^ 7 := by
    rw [UInt8.toNat_and]
    exact Nat.and_two_pow_sub_one_eq_mod b.toNat 7
  rw [hand, bits, Nat.testBit_mod_two_pow, bits_mod (Nat.le_refl 7)]
  simp [bits]

theorem hotp_truncated {mac : Bytes → Bytes → Bytes} {k c : Bytes}
    (hlen : (mac k c).length = sha1HashBytes) :
    Truncated (mac k c) (Hotp.hotp mac k c) := by
  generalize hhash : mac k c = hash at hlen
  have hlast : 19 < hash.length := by
    rw [hlen]
    decide
  have hoff : (hash[19] &&& 15).toNat = hash[19].toNat % 16 := by
    rw [UInt8.toNat_and]
    exact Nat.and_two_pow_sub_one_eq_mod _ 4
  have hfour : ∀ i, i < 16 → ∃ a b c d, (hash.drop i).take 4 = [a, b, c, d] ∧
      hash.getD i 0 = a ∧ hash.getD (i + 1) 0 = b ∧ hash.getD (i + 2) 0 = c ∧
      hash.getD (i + 3) 0 = d := by
    intro i hi
    have h0 : i < hash.length := by omega
    have h1 : i + 1 < hash.length := by omega
    have h2 : i + 2 < hash.length := by omega
    have h3 : i + 3 < hash.length := by omega
    refine ⟨hash[i], hash[i + 1], hash[i + 2], hash[i + 3], ?_, ?_, ?_, ?_, ?_⟩
    · rw [List.drop_eq_getElem_cons h0, List.drop_eq_getElem_cons h1,
        List.drop_eq_getElem_cons h2, List.drop_eq_getElem_cons h3]
      rfl
    · exact List.getD_eq_getElem _ _ h0
    · exact List.getD_eq_getElem _ _ h1
    · exact List.getD_eq_getElem _ _ h2
    · exact List.getD_eq_getElem _ _ h3
  obtain ⟨a, b, c', d, htake, ha, hb, hc, hd⟩ :=
    hfour (hash[19].toNat % 16) (Nat.mod_lt _ (by omega))
  refine ⟨hash[19], List.getElem?_eq_getElem hlast, ?_, ?_⟩
  · rw [htake]
    rfl
  · unfold Hotp.hotp
    rw [hhash]
    simp only [List.getD_eq_getElem _ _ hlast, hoff, ha, hb, hc, hd]
    rw [bits_word, htake, byteStream_cons (a &&& 0x7f), byteStream_cons a,
      List.drop_append_of_le_length (by simp), bits_and_mask]
    rfl

/-- The bytes of a counter, the most significant one first. -/
theorem hotp64_counter (mac : Bytes → Bytes → Bytes) (k : Bytes) (count : UInt64) :
    ∃ c, byteStream c = bits 64 count.toNat ∧ Hotp.hotp64 mac k count = Hotp.hotp mac k c := by
  refine ⟨_, ?_, rfl⟩
  rw [← byteStream_number]
  congr 1

/-- The code for a counter is the one of RFC 4226, for the hash function that pads and cuts
messages into blocks for the accelerator. It does not depend on what was hashed before. -/
theorem hotp64_codes (f : σ → Block → σ) (iv : σ) (hashI : σ → ℕ → UInt32) :
    ∃ hash : Bytes → Bytes, (∀ m, Digest f iv hashI m (hash m)) ∧
      (∀ k c s, ∃ s', hmacSha1 (accelerator f iv hashI) k c s =
        some (hmac hash sha1BlockBytes k c, s')) ∧
      ∀ k count, ∃ c, byteStream c = bits 64 count.toNat ∧
        Truncated (hmac hash sha1BlockBytes k c)
          (Hotp.hotp64 (hmac hash sha1BlockBytes) k count) := by
  have hex : ∀ m, ∃ d, Digest f iv hashI m d := by
    intro m
    obtain ⟨s, -, h⟩ := (shaBegin_hashed modeSha1 ⟨0, Vector.replicate 64 0, 0, 0, []⟩).sha1Hash m
    obtain ⟨d, -, -, hd⟩ := @Hashed.digest _ f iv hashI _ _ _ h
    exact ⟨d, hd⟩
  obtain ⟨hash, hhash⟩ := Classical.axiomOfChoice hex
  refine ⟨hash, hhash, hmacSha1_run hhash, fun k count => ?_⟩
  obtain ⟨c, hc, hcode⟩ := hotp64_counter (hmac hash sha1BlockBytes) k count
  refine ⟨c, hc, ?_⟩
  rw [hcode]
  exact hotp_truncated (hhash _).length

end Sunela.Sha
