import Sunela.Verification.Sha.Blocks

/-! # The padding of a message

What `sha_end` appends to a message of any length fills up the last block. -/

namespace Sunela.Sha

open Bits Padding Bip39

/-- The bytes that `sha_end` appends to a message, with `bits` for its length. -/
def ending (zeros : ℕ) (bits : UInt64) : Bytes :=
  0x80 :: List.replicate zeros 0 ++
    (List.range 8).flatMap fun i => [(bits >>> (56 - UInt64.ofNat i * 8)).toUInt8]

theorem byteStream_zeros (n : ℕ) :
    byteStream (List.replicate n 0) = List.replicate (8 * n) false := by
  induction n with
  | zero => rfl
  | succ n ih =>
      rw [List.replicate_succ, byteStream_cons, ih, show (0 : UInt8).toNat = 0 by rfl, bits_of_zero,
        List.replicate_append_replicate, Nat.mul_succ, Nat.add_comm]

theorem bits_toUInt8 (n : UInt64) : bits 8 n.toUInt8.toNat = bits 8 n.toNat := by
  rw [UInt64.toNat_toUInt8]
  exact bits_mod (Nat.le_refl 8) _

theorem toNat_shiftRight {n k : UInt64} {j : ℕ} (hk : k.toNat = j) (hj : j < 64) :
    (n >>> k).toNat = n.toNat >>> j := by
  rw [UInt64.toNat_shiftRight, hk, Nat.mod_eq_of_lt hj]

/-- The eight bytes are the bits of the number. -/
theorem byteStream_number (n : UInt64) :
    byteStream ((List.range 8).flatMap fun i => [(n >>> (56 - UInt64.ofNat i * 8)).toUInt8]) =
      bits 64 n.toNat := by
  have hbyte : ∀ (k : UInt64) (j w : ℕ), k.toNat = j → j < 64 →
      bits 8 (n >>> k).toUInt8.toNat ++ bits j (n.toNat) = bits (8 + j) n.toNat := by
    intro k j w hk hj
    rw [bits_toUInt8, toNat_shiftRight hk hj, bits_append]
  rw [show List.range 8 = [0, 1, 2, 3, 4, 5, 6, 7] by rfl]
  simp only [List.flatMap_cons, List.flatMap_nil, List.cons_append, List.nil_append,
    List.append_nil, byteStream_cons, byteStream_nil]
  have h7 := hbyte (56 - UInt64.ofNat 7 * 8) 0 64 rfl (by decide)
  have h6 := hbyte (56 - UInt64.ofNat 6 * 8) 8 64 rfl (by decide)
  have h5 := hbyte (56 - UInt64.ofNat 5 * 8) 16 64 rfl (by decide)
  have h4 := hbyte (56 - UInt64.ofNat 4 * 8) 24 64 rfl (by decide)
  have h3 := hbyte (56 - UInt64.ofNat 3 * 8) 32 64 rfl (by decide)
  have h2 := hbyte (56 - UInt64.ofNat 2 * 8) 40 64 rfl (by decide)
  have h1 := hbyte (56 - UInt64.ofNat 1 * 8) 48 64 rfl (by decide)
  have h0 := hbyte (56 - UInt64.ofNat 0 * 8) 56 64 rfl (by decide)
  rw [bits_zero, List.append_nil] at h7
  rw [h7, h6, h5, h4, h3, h2, h1, h0]

/-- The length in bits, of which 64 bits are kept. -/
theorem bits_length_of (n : ℕ) : bits 64 (UInt64.ofNat n <<< 3).toNat = bits 64 (8 * n) := by
  rw [UInt64.toNat_shiftLeft, UInt64.toNat_ofNat', show (3 : UInt64).toNat % 64 = 3 by rfl,
    Nat.shiftLeft_eq, bits_mod (Nat.le_refl 64), ← bits_mod (Nat.le_refl 64),
    Nat.mod_mul_mod, bits_mod (Nat.le_refl 64), Nat.mul_comm]

theorem padded_ending {m : Bytes} {zeros : ℕ} (hz : zeros < 64)
    (hmod : (m.length + 1 + zeros + 8) % 64 = 0) :
    Padded (byteStream m) (byteStream (m ++ ending zeros (UInt64.ofNat m.length <<< 3)))
      (8 * zeros + 7) := by
  apply Padded.of_lt
  · rw [byteStream_append, ending, byteStream_append, byteStream_cons, byteStream_zeros,
      byteStream_number, bits_length_of, byteStream_length,
      show bits 8 (0x80 : UInt8).toNat = true :: List.replicate 7 false by rfl, List.cons_append,
      List.replicate_append_replicate, List.append_assoc, Nat.add_comm 7]
  · rw [byteStream_length]
    omega
  · omega

/-- No assertion of `sha_end` fails, and what it hashes fills up the last block. -/
theorem Hashed.shaEnd {before : List Trigger} {m : Bytes} {s : Driver}
    (h : Hashed before m s) (hashI : List Trigger → ℕ → UInt32) (bytes : ℕ) :
    ∃ res s' blocks zeros, Sha.shaEnd hashI bytes s = some (res, s') ∧
      s'.triggers = before ++ triggersOf blocks ∧
      Padded (byteStream m) (byteStream (blocks.flatMap Vector.toList)) zeros := by
  obtain ⟨s₁, hs₁, h₁⟩ := h.sha1Hash [0x80]
  have hzeros := h₁.got_eq
  rw [List.length_append, List.length_singleton] at hzeros
  generalize hz : (2 * sha1BlockBytes - 8 - s₁.got) % sha1BlockBytes = zeros
  rw [hzeros] at hz
  have hlt : zeros < 64 := hz ▸ Nat.mod_lt _ (by decide)
  have hmod : (m.length + 1 + zeros + 8) % 64 = 0 := by
    rw [← hz]
    simp only [sha1BlockBytes]
    omega
  obtain ⟨s₂, hs₂, h₂⟩ := h₁.sha1Hash (List.replicate zeros 0)
  obtain ⟨s₃, hs₃, h₃⟩ := Hashed.calls
    (fun i => [((s.length <<< 3) >>> (56 - UInt64.ofNat i * 8)).toUInt8])
    (fun _ _ _ hm => hm.sha1Hash _) h₂ (List.range 8)
  have hall : Hashed before (m ++ ending zeros (UInt64.ofNat m.length <<< 3)) s₃ := by
    rw [h.length] at h₃
    simpa only [ending, List.append_assoc, List.singleton_append, List.cons_append,
      List.nil_append] using h₃
  have hlen : (m ++ ending zeros (UInt64.ofNat m.length <<< 3)).length % 64 = 0 := by
    have hp := (padded_ending hlt hmod).length
    rw [byteStream_length] at hp
    omega
  have hgot : s₃.got = 0 := hall.got_eq.trans hlen
  obtain ⟨blocks, hblocks⟩ := hall.collected
  have hbytes := hblocks.bytes
  rw [hgot, List.take_zero, List.append_nil] at hbytes
  refine ⟨result hashI s₃.triggers bytes,
    { s₃ with ctrl := s₃.ctrl &&& (~~~maskEn &&& ~~~maskHashSel) }, blocks, _, ?_,
    hblocks.triggers, hbytes ▸ padded_ending hlt hmod⟩
  simp only [Sha.shaEnd, hs₁, hzeros, hz, hs₂, hs₃, Option.bind_eq_bind, Option.bind_some]
  exact if_neg (not_not.mpr hgot)

theorem Hashed.finish {before : List Trigger} {m : Bytes} {s : Driver} (h : Hashed before m s)
    (alg : Alg) (hashI : List Trigger → ℕ → UInt32) :
    ∃ res s' blocks zeros, alg.finish hashI s = some (res, s') ∧
      s'.triggers = before ++ triggersOf blocks ∧
      Padded (byteStream m) (byteStream (blocks.flatMap Vector.toList)) zeros := by
  cases alg with
  | sha1 => exact h.shaEnd hashI sha1HashBytes
  | sha256 => exact h.shaEnd hashI sha256HashBytes

/-- The blocks at the triggers are those of the padded message, in whatever parts it is hashed.
The first one starts a new hash, and the others go on with it. -/
theorem run_padded (alg : Alg) (hashI : List Trigger → ℕ → UInt32) (calls : List (Alg × Bytes))
    (s : Driver) :
    ∃ res s' blocks zeros, alg.run hashI calls s = some (res, s') ∧
      s'.triggers = s.triggers ++ triggersOf blocks ∧
      Padded (byteStream (calls.flatMap Prod.snd)) (byteStream (blocks.flatMap Vector.toList))
        zeros := by
  obtain ⟨s₁, hs₁, h₁⟩ := Hashed.calls Prod.snd (fun _ _ c hm => hm.hash c.1 c.2)
    (begin_hashed alg s) calls
  rw [List.nil_append] at h₁
  rw [Alg.run, hs₁]
  exact h₁.finish alg hashI

end Sunela.Sha
