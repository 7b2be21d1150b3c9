import Mathlib.Algebra.GroupWithZero.Nat
import Sunela.Model.Sealing
import Sunela.Verification.Dbcrypt.Instance

/-! # The limits on the size of a record

A record is refused only if it is larger than a block, but it has to fit the box in the block. -/

namespace Sunela.Dbcrypt

open Storage Block Fields Entry

variable {nacl : Nacl} {c : DbCtx nacl} {content nonce rk : Bytes} {de : DbEntry}

/-! ## The encryption -/

/-- No assertion of `db_encrypt` fails. -/
theorem dbEncrypt_isSome : (dbEncrypt c content nonce rk).isSome ↔ 0 < c.readers.length ∧
    encryptedAt c.readers.length + boxOverhead ≤ storageBlockSize ∧
    content.length ≤ boxSize c.readers.length := by
  constructor
  · intro h
    obtain ⟨block, hblock⟩ := Option.isSome_iff_exists.mp h
    have henc := dbEncrypt_encrypted hblock
    exact ⟨henc.readers, henc.room, henc.fits⟩
  · intro h
    obtain ⟨hreaders, hroom, hfit⟩ := h
    have hbuf : ¬ inBufSize < cryptoSecretboxZerobytes - boxOverhead +
        (storageBlockSize - encryptedAt c.readers.length) := by
      simp only [inBufSize, cryptoSecretboxZerobytes, boxOverhead, cryptoSecretboxBoxzerobytes]
      omega
    unfold boxSize at hfit
    unfold dbEncrypt dbEncryptPayload
    simp only []
    rw [if_neg (Nat.ne_of_gt hreaders), if_neg (Nat.not_lt.mpr hroom), if_neg (by omega),
      if_neg hbuf]
    rfl

/-- There is room for the lists of all readers. -/
theorem boxSize_eq {n : ℕ} (h : n ≤ dbMaxReaders) :
    encryptedAt n + boxOverhead ≤ storageBlockSize ∧ boxSize n + 32 * n = 952 := by
  simp only [dbMaxReaders] at h
  simp only [boxSize, encryptedAt, readerList, storageBlockSize, boxOverhead,
    cryptoBoxPublickeybytes, cryptoSecretboxNoncebytes, cryptoSecretboxKeybytes,
    cryptoSecretboxZerobytes, cryptoSecretboxBoxzerobytes]
  omega

/-! ## Records -/

/-- How many bytes the fields take in a record. -/
def recordSize (fs : List DbField) : ℕ := (fs.map fun f => f.data.length + 2).sum

theorem encodeFields_length {room : ℕ} {fs : List DbField} {payload : Bytes}
    (h : encodeFields room fs = some payload) :
    payload.length = recordSize fs ∧ payload.length ≤ room := by
  refine ⟨?_, (encodeFields_eq h).2⟩
  rw [(encodeFields_eq h).1, List.length_flatMap]
  rfl

/-- The block with the whole record in its box. -/
structure Seals (c : DbCtx nacl) (de : DbEntry) (nonce rk block payload : Bytes) : Prop where
  encodes : encodeFields storageBlockSize de.fields = some payload
  block : entrySealing c de nonce rk = .block block
  buffer : headerSize + payload.length ≤ storageBlockSize
  box : headerSize + payload.length + boxOverhead ≤ storageBlockSize - encryptedAt c.readers.length
  message : payloadMessage (storageBlockSize - encryptedAt c.readers.length)
    (packed 4 de.seq payload) = zeros cryptoSecretboxZerobytes ++ (packed 4 de.seq payload ++
      zeros (boxSize c.readers.length - (headerSize + payload.length)))

/-- A record that is not refused gets into a block exactly if it fits the box. -/
theorem entrySealing_seals (h0 : 0 < c.readers.length) (hmax : c.readers.length ≤ dbMaxReaders)
    (h : entrySealing c de nonce rk ≠ .refused) :
    (∃ block payload, Seals c de nonce rk block payload) ↔
      recordSize de.fields + 32 * c.readers.length ≤ 948 := by
  obtain ⟨hroom, hsize⟩ := boxSize_eq hmax
  have hheader : headerSize = 4 := rfl
  constructor
  · intro hs
    obtain ⟨block, payload, hs⟩ := hs
    obtain ⟨hlen, -⟩ := encodeFields_length hs.encodes
    have hbox := hs.box
    unfold boxSize at hsize
    omega
  · intro hle
    cases he : encodeFields storageBlockSize de.fields with
    | none => exact absurd (by rw [entrySealing, he]) h
    | some payload =>
        obtain ⟨hlen, -⟩ := encodeFields_length he
        have hcontent : (packed 4 de.seq payload).length = headerSize + payload.length :=
          packed_length 4 de.seq payload
        have hfit : (packed 4 de.seq payload).length ≤ boxSize c.readers.length := by omega
        have hbuf : headerSize + payload.length ≤ storageBlockSize := by
          have hblock : storageBlockSize = 1024 := rfl
          omega
        obtain ⟨block, hblock⟩ := Option.isSome_iff_exists.mp
          ((@dbEncrypt_isSome _ c _ nonce rk).mpr ⟨h0, hroom, hfit⟩)
        refine ⟨block, payload, he, ?_, hbuf, ?_, ?_⟩
        · rw [entrySealing, he]
          simp only [blockSealing, if_neg (Nat.not_lt.mpr hbuf), hblock]
        · unfold boxSize at hsize
          omega
        · rw [payloadMessage_eq hroom hfit, hcontent]

/-! ## Accounts -/

/-- A context whose only reader is the writer. -/
def ownCtx : DbCtx (sharedNacl 1 []) := dbcryptInit _ (List.replicate 32 8)

/-- An account whose fields have the given lengths. -/
def sizedEntry (lengths : List ℕ) : DbEntry where
  ptr := 0
  name := .ofBuffer []
  block := 8
  seq := 0
  defer := false
  fields := lengths.mapIdx fun i n =>
    .ofData (UInt8.ofNat (i + ftId.toNat)) (List.replicate n 120)

/-- 916 bytes fit. -/
theorem entrySealing_seals_full :
    recordSize (sizedEntry [255, 255, 255, 143]).fields + 32 * ownCtx.readers.length = 948 ∧
    ∃ block payload, Seals ownCtx (sizedEntry [255, 255, 255, 143]) (zeros 24)
      (List.replicate 32 7) block payload := by
  have hsize : recordSize (sizedEntry [255, 255, 255, 143]).fields +
      32 * ownCtx.readers.length = 948 := by decide +kernel
  have hrec : entrySealing ownCtx (sizedEntry [255, 255, 255, 143]) (zeros 24)
      (List.replicate 32 7) ≠ .refused := by decide +kernel
  exact ⟨hsize, (entrySealing_seals (by decide) (by decide) hrec).mpr (Nat.le_of_eq hsize)⟩

/-- One more byte is not refused, but an assertion fails. -/
theorem entrySealing_seals_over : ∃ nacl, ∃ c : DbCtx nacl, ∃ de nonce rk,
    0 < c.readers.length ∧ c.readers.length ≤ dbMaxReaders ∧
    entrySealing c de nonce rk = .failed :=
  ⟨_, ownCtx, sizedEntry [255, 255, 255, 144], zeros 24, List.replicate 32 7, by decide,
    by decide, by decide +kernel⟩

end Sunela.Dbcrypt
