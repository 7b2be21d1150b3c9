import Mathlib.Data.List.GetD
import Sunela.Model.Pin
import Sunela.Verification.Support.PlainCrypt

/-! # Hashes without secrecy

An instance of the hash functions in which the hashes of a PIN are the PIN itself. -/

namespace Sunela.Secrets

/-- The XOR of the first two groups of 32 bytes. -/
def plainHash (bs : Bytes) : Secret :=
  Vector.ofFn fun i => bs.getD i 0 ^^^ bs.getD (masterSecretBytes + i) 0

def plainHashes : Hashes where
  sha256 := plainHash
  cryptoBoxBeforenm _ sk := sk

/-! ## Identifiers -/

theorem plainHash_getElem (bs : Bytes) {i : ℕ} (h : i < masterSecretBytes) :
    (plainHash bs)[i] = bs.getD i 0 ^^^ bs.getD (masterSecretBytes + i) 0 := by
  rw [plainHash, Vector.getElem_ofFn]

/-- The hash of a PIN is the PIN. -/
theorem plainHash_pinBytes (pin : UInt32) {i : ℕ} (h : i < masterSecretBytes) :
    (plainHash (pinBytes pin))[i] = (pinBytes pin).getD i 0 := by
  have hlen : (pinBytes pin).length = 4 := rfl
  have h32 : masterSecretBytes = 32 := rfl
  rw [plainHash_getElem _ h, List.getD_eq_default (pinBytes pin) 0 (by omega : _ ≤ _ + i),
    UInt8.xor_zero]

theorem plainHash_pair (a b : Secret) : plainHash (a.toList ++ b.toList) = xor a b := by
  apply Vector.ext
  intro i hi
  have ha : a.toList.length = masterSecretBytes := Vector.length_toList
  have hb : b.toList.length = masterSecretBytes := Vector.length_toList
  rw [plainHash_getElem _ hi, xor, Vector.getElem_zipWith,
    List.getD_append _ _ _ _ (by omega), List.getD_append_right _ _ _ _ (by omega),
    List.getD_eq_getElem _ _ (by omega), List.getD_eq_getElem _ _ (by omega)]
  congr 1
  simp [ha]

theorem plainHash_behind (bs : Bytes) (h : bs.length ≤ masterSecretBytes) :
    plainHash (deviceSecret.toList ++ bs) = plainHash bs := by
  apply Vector.ext
  intro i hi
  have hd : deviceSecret.toList.length = masterSecretBytes := Vector.length_toList
  have hzero : deviceSecret.toList.getD i 0 = 0 := by
    rw [List.getD_eq_getElem _ _ (by omega)]
    simp [deviceSecret]
  have hend : bs.getD (masterSecretBytes + i) 0 = 0 := List.getD_eq_default _ _ (by omega)
  rw [plainHash_getElem _ hi, plainHash_getElem _ hi,
    List.getD_append _ _ _ _ (by omega), List.getD_append_right _ _ _ _ (by omega), hd,
    Nat.add_sub_cancel_left, hzero, hend, UInt8.zero_xor,
    UInt8.xor_zero]

theorem idHash_plainHashes (pin : UInt32) : idHash plainHashes pin = plainHash (pinBytes pin) := by
  have hself : ∀ a : Secret, xor (xor a a) a = a := by
    intro a
    apply Vector.ext
    intro i hi
    simp [xor]
  have hb : plainHash (deviceSecret.toList ++ pinBytes pin) = plainHash (pinBytes pin) :=
    plainHash_behind _ (by simp [pinBytes, masterSecretBytes])
  simp only [idHash, mult, plainHashes, hb, plainHash_pair, hself]

theorem idHash_plainHashes_injective : Function.Injective (idHash plainHashes) := by
  intro p q h
  rw [idHash_plainHashes, idHash_plainHashes] at h
  have hbyte : ∀ i < 4, (pinBytes p).getD i 0 = (pinBytes q).getD i 0 := by
    intro i hi
    have h32 : i < masterSecretBytes := Nat.lt_of_lt_of_le hi (by decide)
    rw [← plainHash_pinBytes p h32, ← plainHash_pinBytes q h32]
    simp only [h]
  have h0 := congrArg UInt8.toNat (hbyte 0 (by decide))
  have h1 := congrArg UInt8.toNat (hbyte 1 (by decide))
  have h2 := congrArg UInt8.toNat (hbyte 2 (by decide))
  have h3 := congrArg UInt8.toNat (hbyte 3 (by decide))
  simp only [pinBytes, List.getD_cons_zero, List.getD_cons_succ, UInt32.toNat_toUInt8,
    UInt32.toNat_shiftRight, Nat.shiftRight_eq_div_pow, UInt32.reduceToNat, Nat.reduceMod,
    Nat.reducePow] at h0 h1 h2 h3
  apply UInt32.toNat_inj.mp
  have hp := p.toNat_lt
  have hq := q.toNat_lt
  omega

theorem idHash_plainHashes_ne (pin : UInt32) :
    idHash plainHashes pin ≠ Vector.replicate _ 0xff := by
  intro h
  rw [idHash_plainHashes] at h
  have h4 := plainHash_pinBytes pin (i := 4) (by decide)
  simp only [h, Vector.getElem_replicate] at h4
  exact absurd h4 (by simp [pinBytes])

def plainPlatform : Pin.Platform where
  hashes := plainHashes
  dbcryptInit _ := Database.plainCrypt
  storageBlocks := 16

end Sunela.Secrets
