import Sunela.Model.Block
import Sunela.Verification.Dbcrypt.RoundTrip

/-! # The encryption that the block level assumes

With a single reader, the one that writes, `dbcrypt.c` provides the encryption of blocks that
the operations on them take as a parameter. -/

namespace Sunela.Dbcrypt

open Storage Block

variable {nacl : Nacl} {c : DbCtx nacl} {content nonce rk block sk : Bytes}

/-! ## Lengths -/

theorem firstOf_mem {α β : Type} {trial : α → Option (Option β)} {l : List α} {b : β}
    (h : firstOf trial l = some (some b)) : ∃ a ∈ l, trial a = some (some b) := by
  induction l with
  | nil => cases h
  | cons a l ih =>
      simp only [firstOf] at h
      split at h
      · cases h
      · next ha => exact ⟨a, by simp, ha.trans h⟩
      · obtain ⟨x, hx, hb⟩ := ih h
        exact ⟨x, by simp [hx], hb⟩

theorem dbDecryptPayload_length {size : ℕ} {encrypted : Bytes}
    (h : dbDecryptPayload nacl size encrypted nonce rk = some (some content)) :
    content.length + cryptoSecretboxZerobytes = cryptoSecretboxBoxzerobytes + encrypted.length := by
  unfold dbDecryptPayload at h
  simp only at h
  split at h
  · cases h
  split at h
  · cases h
  next out hout =>
    split at h
    · cases h
    next hmlen =>
      have hlen := nacl.open_length _ _ _ _ hout
      rw [List.length_append, zeros_length] at hlen
      obtain rfl := Option.some.inj (Option.some.inj h)
      rw [List.length_take, List.length_drop, hlen]
      omega

/-- What is opened has the size of a box for some number of readers. -/
theorem dbDecrypt_length {size : ℕ} (hb : block.length = storageBlockSize)
    (h : dbDecrypt nacl sk size block = some (some content)) :
    ∃ n ∈ layouts, content.length = boxSize n := by
  obtain ⟨n, hn, hlayout⟩ := firstOf_mem h
  obtain ⟨i, -, htrial⟩ := firstOf_mem hlayout
  refine ⟨n, hn, ?_⟩
  have hlen := dbDecryptPayload_length htrial
  rw [List.length_drop, hb] at hlen
  have hfit := fits_of_mem_layouts hn
  simp only [boxSize, boxOverhead, cryptoSecretboxZerobytes, cryptoSecretboxBoxzerobytes] at *
  omega

/-! ## One reader -/

/-- What fits is encrypted. -/
theorem dbEncrypt_init (hfit : content.length ≤ boxSize 1) (nonce rk : Bytes) :
    ∃ block, dbEncrypt (dbcryptInit nacl sk) content nonce rk = some block := by
  have hbox : boxSize 1 = 920 := by decide
  have hat : encryptedAt (dbcryptInit nacl sk).readers.length = 88 := rfl
  have hreaders : ¬ (dbcryptInit nacl sk).readers.length = 0 := Nat.one_ne_zero
  unfold dbEncrypt dbEncryptPayload
  simp only [hat]
  rw [if_neg hreaders, if_neg (by decide), if_neg, if_neg (by decide)]
  · exact ⟨_, rfl⟩
  · rw [hbox] at hfit
    simp only [storageBlockSize, boxOverhead, cryptoSecretboxZerobytes,
      cryptoSecretboxBoxzerobytes]
    omega

/-- Every box opens with the nonce and the key that it was made with. -/
def Nacl.Opens (nacl : Nacl) : Prop :=
  ∀ m n k, m.take cryptoSecretboxZerobytes = zeros cryptoSecretboxZerobytes →
    nacl.cryptoSecretboxOpen (nacl.cryptoSecretbox m n k) n k = some m

/-- The first layout that is tried is the one with a single reader. -/
theorem Encrypted.dbDecrypt_init
    (h : Encrypted (dbcryptInit nacl sk) content nonce rk block) (hopen : nacl.Opens)
    (hn : nonce.length = cryptoSecretboxNoncebytes) (hk : rk.length = cryptoSecretboxKeybytes) :
    Dbcrypt.dbDecrypt nacl sk storageBlockSize block = some (some (boxContent 1 content)) := by
  have hpayload := @Encrypted.dbDecryptPayload_box _ _ _ _ _ _ storageBlockSize h
    (hopen _ nonce rk (by
      rw [h.message]
      exact List.take_left' (zeros_length _)))
    (show boxSize 1 ≤ storageBlockSize by decide)
  have hek := h.encryptedKey hn hk (i := 0) rfl
  have htrial : dbTryDecrypt nacl storageBlockSize block (block.drop (encryptedAt 1)) 0
      ((block.drop (readerList + 0 * cryptoSecretboxKeybytes)).take cryptoSecretboxKeybytes)
      (nacl.cryptoBoxBeforenm (dbcryptInit nacl sk).pk sk) = some (some (boxContent 1 content)) := by
    unfold dbTryDecrypt
    have hkey : decryptedKey nacl nonce (Dbcrypt.encryptedKey nacl nonce rk 0
        (nacl.cryptoBoxBeforenm (nacl.cryptoScalarmultBase sk) sk)) 0
        (nacl.cryptoBoxBeforenm (dbcryptInit nacl sk).pk sk) = rk :=
      (decryptedKey_encryptedKey hk).mpr rfl
    rw [h.blockNonce_eq hn, hek, hkey]
    exact (congrArg (dbDecryptPayload nacl storageBlockSize · nonce rk)
      (h.encrypted hn hk)).trans hpayload
  have hlayout : tryLayout nacl storageBlockSize block
      (nacl.cryptoBoxBeforenm (dbcryptInit nacl sk).pk sk) 1 =
      some (some (boxContent 1 content)) := by
    unfold tryLayout
    rw [show List.range 1 = [0] from rfl]
    simp only [firstOf]
    rw [htrial]
  unfold Dbcrypt.dbDecrypt
  rw [h.writer, show layouts = 1 :: layouts.tail by decide]
  simp only [firstOf]
  rw [hlayout]

/-- A block is recognized by the start of the writer's key, unless its bytes are all clear or
all set. -/
theorem classifyBlock_data {b : Block}
    (h0 : (b.bytes.take dbNonceSize).all (· == 0) = false)
    (h1 : (b.bytes.take dbNonceSize).all (· == 0xff) = false) : classifyBlock b = .data := by
  unfold classifyBlock
  cases hb : b.bytes with
  | nil => rfl
  | cons first rest =>
      rw [hb] at h0 h1
      rw [show dbNonceSize = dbNonceSize - 1 + 1 from rfl, List.take_succ_cons,
        List.all_cons] at h0 h1
      simp only
      by_cases hz : first = 0
      · rw [if_pos hz, if_neg]
        simpa [hz] using h0
      · rw [if_neg hz]
        by_cases hf : first = 0xff
        · rw [if_pos hf, if_neg]
          simpa [hf] using h1
        · rw [if_neg hf]

/-- What an encrypted block looks like before it is decrypted. -/
structure Recognizable (pk : Bytes) : Prop where
  not_deleted : (pk.take dbNonceSize).all (· == 0) = false
  not_erased : (pk.take dbNonceSize).all (· == 0xff) = false

def asBlock (bytes : Option Bytes) : Block :=
  match bytes with
  | none => zeroBlock
  | some bytes => if h : bytes.length = storageBlockSize then ⟨bytes, h⟩ else zeroBlock

theorem encrypt_init (hn : nonce.length = cryptoSecretboxNoncebytes)
    (hk : rk.length = cryptoSecretboxKeybytes) (hfit : content.length ≤ boxSize 1) :
    Encrypted (dbcryptInit nacl sk) content nonce rk
      (asBlock (dbEncrypt (dbcryptInit nacl sk) content nonce rk)).bytes := by
  obtain ⟨block, hblock⟩ := @dbEncrypt_init nacl _ sk hfit nonce rk
  have henc := dbEncrypt_encrypted hblock
  rw [hblock]
  simp only [asBlock, henc.block_length hn hk, dif_pos]
  exact henc

/-- The encryption of blocks with one secret key. -/
def Nacl.dbcrypt (nacl : Nacl) (sk : Bytes) (hopen : nacl.Opens)
    (hpk : Recognizable (nacl.cryptoScalarmultBase sk)) : Dbcrypt where
  capacity := boxSize 1
  encrypt nonce rk content := asBlock (dbEncrypt (dbcryptInit nacl sk) content nonce rk)
  decrypt b := (dbDecrypt nacl sk storageBlockSize b.bytes).join
  capacity_le := by decide
  decrypt_length b content h := by
    obtain ⟨n, hn, hlen⟩ := dbDecrypt_length b.size (Option.join_eq_some_iff.mp h)
    have hall : ∀ n ∈ layouts, headerSize ≤ boxSize n ∧ boxSize n ≤ storageBlockSize := by decide
    rw [hlen]
    exact hall n hn
  decrypt_encrypt nonce rk content hn hk hfit := by
    rw [(encrypt_init hn hk hfit).dbDecrypt_init hopen hn hk]
    rfl
  classify_encrypt nonce rk content hn hk hfit := by
    have hw := (@encrypt_init nacl _ _ _ sk hn hk hfit).writer
    have htake : (asBlock (dbEncrypt (dbcryptInit nacl sk) content nonce rk)).bytes.take
        dbNonceSize = (nacl.cryptoScalarmultBase sk).take dbNonceSize := by
      rw [show nacl.cryptoScalarmultBase sk = (dbcryptInit nacl sk).pk from rfl, ← hw,
        List.take_take]
      rfl
    apply classifyBlock_data
    · rw [htake]
      exact hpk.not_deleted
    · rw [htake]
      exact hpk.not_erased

end Sunela.Dbcrypt
