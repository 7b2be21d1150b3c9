import Sunela.Model.Dbcrypt

/-! # What is encrypted for a reader can be decrypted

Decryption tries every layout and every position. Only the box that was made opens, so a key
decrypts a block if and only if it recovers the record key at some position of the reader list. -/

namespace Sunela.Dbcrypt

open Storage

variable {nacl : Nacl} {c : DbCtx nacl} {content nonce rk block sk : Bytes} {size : ℕ}

@[simp] theorem zeros_length (n : ℕ) : (zeros n).length = n := List.length_replicate ..

/-! ## Exclusive or -/

theorem zipWith_xor_cancel {a b : Bytes} (h : a.length = b.length) :
    List.zipWith (· ^^^ ·) (List.zipWith (· ^^^ ·) a b) b = a := by
  induction a generalizing b with
  | nil => rfl
  | cons x a ih =>
      cases b with
      | nil => cases h
      | cons y b =>
          simp only [List.zipWith_cons_cons, List.cons.injEq]
          exact ⟨by rw [UInt8.xor_assoc, UInt8.xor_self, UInt8.xor_zero],
            ih (Nat.succ.inj h)⟩

/-- What is added twice cancels only if it is the same. -/
theorem zipWith_xor_eq_self {a b b' : Bytes} (h : a.length = b.length)
    (h' : a.length = b'.length) :
    List.zipWith (· ^^^ ·) (List.zipWith (· ^^^ ·) a b) b' = a ↔ b = b' := by
  constructor
  · intro heq
    induction a generalizing b b' with
    | nil =>
        rw [List.eq_nil_of_length_eq_zero h.symm, List.eq_nil_of_length_eq_zero h'.symm]
    | cons x a ih =>
        cases b with
        | nil => cases h
        | cons y b =>
            cases b' with
            | nil => cases h'
            | cons y' b' =>
                simp only [List.zipWith_cons_cons, List.cons.injEq] at heq
                obtain ⟨hx, hrest⟩ := heq
                rw [UInt8.xor_assoc] at hx
                have hy : x ^^^ (y ^^^ y') = x ^^^ 0 := by rw [hx, UInt8.xor_zero]
                have hyy := UInt8.xor_eq_zero_iff.mp ((UInt8.xor_right_inj x).mp hy)
                rw [hyy, ih (Nat.succ.inj h) (Nat.succ.inj h') hrest]
  · rintro rfl
    exact zipWith_xor_cancel h

/-! ## Record keys -/

/-- The part of the key stream that a record key is encrypted with. -/
def keyStream (nacl : Nacl) (nonce : Bytes) (i : ℕ) (k : Bytes) : Bytes :=
  (nacl.cryptoStream (cryptoSecretboxZerobytes + cryptoSecretboxKeybytes)
    (nonce2 nonce (i + 1)) k).drop cryptoSecretboxZerobytes

@[simp] theorem keyStream_length (nonce : Bytes) (i : ℕ) (k : Bytes) :
    (keyStream nacl nonce i k).length = cryptoSecretboxKeybytes := by
  simp [keyStream, nacl.stream_length]

theorem encryptedKey_eq {k : Bytes} {i : ℕ} (hrk : rk.length = cryptoSecretboxKeybytes) :
    encryptedKey nacl nonce rk i k = List.zipWith (· ^^^ ·) rk (keyStream nacl nonce i k) := by
  unfold encryptedKey Nacl.cryptoStreamXor keyStream
  rw [List.drop_zipWith, List.drop_left' (zeros_length _), List.length_append, zeros_length, hrk,
    List.take_of_length_le]
  simp [hrk, nacl.stream_length]

theorem decryptedKey_eq {ek k : Bytes} {i : ℕ} (hek : ek.length = cryptoSecretboxKeybytes) :
    decryptedKey nacl nonce ek i k = List.zipWith (· ^^^ ·) ek (keyStream nacl nonce i k) :=
  encryptedKey_eq hek

theorem encryptedKey_length {k : Bytes} {i : ℕ} (hrk : rk.length = cryptoSecretboxKeybytes) :
    (encryptedKey nacl nonce rk i k).length = cryptoSecretboxKeybytes := by
  rw [encryptedKey_eq hrk, List.length_zipWith, hrk, keyStream_length, Nat.min_self]

/-- A shared secret recovers the record key at a position if and only if it has the key stream
of the reader there. -/
theorem decryptedKey_encryptedKey {k k' : Bytes} {i : ℕ}
    (hrk : rk.length = cryptoSecretboxKeybytes) :
    decryptedKey nacl nonce (encryptedKey nacl nonce rk i k) i k' = rk ↔
      keyStream nacl nonce i k = keyStream nacl nonce i k' := by
  rw [decryptedKey_eq (encryptedKey_length hrk), encryptedKey_eq hrk]
  exact zipWith_xor_eq_self (by rw [hrk, keyStream_length]) (by rw [hrk, keyStream_length])

/-! ## Slices -/

/-- Parts of one size are found at the multiples of it. -/
theorem flatten_slice {l : List Bytes} {n i : ℕ} (hl : ∀ x ∈ l, x.length = n) {x : Bytes}
    (hi : l[i]? = some x) (rest : Bytes) : ((l.flatten ++ rest).drop (i * n)).take n = x := by
  induction l generalizing i with
  | nil => simp at hi
  | cons y l ih =>
      have hy : y.length = n := hl y (by simp)
      cases i with
      | zero =>
          obtain rfl : y = x := by simpa using hi
          simp [← hy]
      | succ i =>
          have hrest := ih (fun z hz => hl z (by simp [hz])) (by simpa using hi)
          rw [List.flatten_cons, List.append_assoc, Nat.succ_mul, Nat.add_comm, ← hy,
            List.drop_length_add_append, hy]
          exact hrest

theorem length_flatten_of {l : List Bytes} {n : ℕ} (hl : ∀ x ∈ l, x.length = n) :
    l.flatten.length = l.length * n := by
  induction l with
  | nil => simp
  | cons x l ih =>
      rw [List.flatten_cons, List.length_append, hl x (by simp),
        ih fun y hy => hl y (by simp [hy]), List.length_cons, Nat.succ_mul, Nat.add_comm]

/-! ## The block -/

/-- The record keys of a block, one after the other. -/
def readerKeys (c : DbCtx nacl) (nonce rk : Bytes) : List Bytes :=
  c.readers.mapIdx fun i r => encryptedKey nacl nonce rk i r.k

/-- The box of a block, without the zeros before it. -/
def box (c : DbCtx nacl) (content nonce rk : Bytes) : Bytes :=
  (nacl.cryptoSecretbox
    (payloadMessage (storageBlockSize - encryptedAt c.readers.length) content) nonce rk).drop
    cryptoSecretboxBoxzerobytes

/-- How many bytes the box has room for. -/
def boxSize (nReaders : ℕ) : ℕ := storageBlockSize - encryptedAt nReaders - boxOverhead

/-- What is known when a block has been encrypted. -/
structure Encrypted (c : DbCtx nacl) (content nonce rk block : Bytes) : Prop where
  readers : 0 < c.readers.length
  room : encryptedAt c.readers.length + boxOverhead ≤ storageBlockSize
  fits : content.length ≤ boxSize c.readers.length
  block : block = c.pk ++ (nonce ++ ((readerKeys c nonce rk).flatten ++ box c content nonce rk))

/-- The message is the content between the zeros before it and those that fill the box. -/
theorem payloadMessage_eq {nReaders : ℕ} (hroom : encryptedAt nReaders + boxOverhead ≤
    storageBlockSize) (hfit : content.length ≤ boxSize nReaders) :
    payloadMessage (storageBlockSize - encryptedAt nReaders) content =
      zeros cryptoSecretboxZerobytes ++
        (content ++ zeros (boxSize nReaders - content.length)) := by
  unfold boxSize at hfit
  unfold payloadMessage zeros
  simp only [cryptoSecretboxZerobytes, boxOverhead, cryptoSecretboxBoxzerobytes, inBufSize,
    storageBlockSize, boxSize] at hroom hfit ⊢
  rw [List.take_append, List.take_append, List.take_of_length_le (by simp; omega),
    List.length_replicate, List.take_of_length_le (by omega), List.take_replicate]
  congr 3
  omega

theorem dbEncrypt_encrypted (h : dbEncrypt c content nonce rk = some block) :
    Encrypted c content nonce rk block := by
  unfold dbEncrypt at h
  simp only at h
  split at h
  · cases h
  split at h
  · cases h
  split at h
  · cases h
  next hn hroom hfit =>
    obtain ⟨encrypted, hpayload, h⟩ := Option.bind_eq_some_iff.mp h
    unfold dbEncryptPayload at hpayload
    simp only at hpayload
    split at hpayload
    · cases hpayload
    have hfit' : content.length ≤ boxSize c.readers.length := by
      unfold boxSize
      omega
    have hlen := congrArg List.length (payloadMessage_eq (Nat.not_lt.mp hroom) hfit')
    obtain rfl := Option.some.inj hpayload
    obtain rfl := Option.some.inj h
    refine ⟨Nat.pos_of_ne_zero hn, Nat.not_lt.mp hroom, hfit', ?_⟩
    rw [List.take_of_length_le]
    · rfl
    · rw [List.length_drop, nacl.secretbox_length _ _ _ (by rw [hlen]; simp), hlen]
      simp only [List.length_append, zeros_length]
      unfold boxSize at hfit' ⊢
      simp only [cryptoSecretboxZerobytes, boxOverhead, cryptoSecretboxBoxzerobytes] at *
      omega

/-- The message that the record key encrypts. -/
theorem Encrypted.message (h : Encrypted c content nonce rk block) :
    payloadMessage (storageBlockSize - encryptedAt c.readers.length) content =
      zeros cryptoSecretboxZerobytes ++
        (content ++ zeros (boxSize c.readers.length - content.length)) :=
  payloadMessage_eq h.room h.fits

theorem Encrypted.message_length (h : Encrypted c content nonce rk block) :
    (payloadMessage (storageBlockSize - encryptedAt c.readers.length) content).length =
      cryptoSecretboxZerobytes + boxSize c.readers.length := by
  have hfit := h.fits
  rw [h.message]
  simp only [List.length_append, zeros_length]
  omega

theorem Encrypted.box_length (h : Encrypted c content nonce rk block) :
    (box c content nonce rk).length = boxSize c.readers.length + boxOverhead := by
  unfold box
  rw [List.length_drop, nacl.secretbox_length _ _ _ (by rw [h.message_length]; omega),
    h.message_length]
  simp only [cryptoSecretboxZerobytes, boxOverhead, cryptoSecretboxBoxzerobytes]
  omega

/-- The zeros that a box starts with are all that the block does not store. -/
theorem Encrypted.secretbox (h : Encrypted c content nonce rk block) :
    zeros cryptoSecretboxBoxzerobytes ++ box c content nonce rk = nacl.cryptoSecretbox
      (payloadMessage (storageBlockSize - encryptedAt c.readers.length) content) nonce rk := by
  unfold box
  rw [← nacl.secretbox_zeros _ nonce rk (by rw [h.message_length]; omega), List.take_append_drop]

theorem Encrypted.writer (h : Encrypted c content nonce rk block) :
    block.take cryptoBoxPublickeybytes = c.pk := by
  rw [h.block]
  exact List.take_left' (by rw [c.pk_eq, nacl.publickey_length])

theorem Encrypted.blockNonce_eq (h : Encrypted c content nonce rk block)
    (hnonce : nonce.length = cryptoSecretboxNoncebytes) :
    blockNonce block = nonce := by
  unfold blockNonce
  rw [h.block, List.drop_left' (by rw [c.pk_eq, nacl.publickey_length])]
  exact List.take_left' hnonce

/-- What follows the writer's key and the nonce. -/
theorem Encrypted.drop_readerList (h : Encrypted c content nonce rk block)
    (hnonce : nonce.length = cryptoSecretboxNoncebytes) (k : ℕ) :
    block.drop (readerList + k) =
      ((readerKeys c nonce rk).flatten ++ box c content nonce rk).drop k := by
  have hpk : c.pk.length = cryptoBoxPublickeybytes := by rw [c.pk_eq, nacl.publickey_length]
  rw [h.block, ← List.append_assoc, ← List.drop_drop, List.drop_left']
  rw [List.length_append, hpk, hnonce]
  rfl

theorem Encrypted.encryptedKey (h : Encrypted c content nonce rk block)
    (hnonce : nonce.length = cryptoSecretboxNoncebytes)
    (hrk : rk.length = cryptoSecretboxKeybytes) {i : ℕ} {r : Peer}
    (hr : c.readers[i]? = some r) :
    (block.drop (readerList + i * cryptoSecretboxKeybytes)).take cryptoSecretboxKeybytes =
      Dbcrypt.encryptedKey nacl nonce rk i r.k := by
  rw [h.drop_readerList hnonce]
  apply flatten_slice
  · intro x hx
    obtain ⟨j, hj, rfl⟩ := List.mem_mapIdx.mp hx
    exact encryptedKey_length hrk
  · simp [readerKeys, hr]

theorem Encrypted.encrypted (h : Encrypted c content nonce rk block)
    (hnonce : nonce.length = cryptoSecretboxNoncebytes)
    (hrk : rk.length = cryptoSecretboxKeybytes) :
    block.drop (encryptedAt c.readers.length) = box c content nonce rk := by
  unfold encryptedAt
  rw [h.drop_readerList hnonce]
  apply List.drop_left'
  rw [length_flatten_of (n := cryptoSecretboxKeybytes)]
  · simp [readerKeys]
  · intro x hx
    obtain ⟨j, hj, rfl⟩ := List.mem_mapIdx.mp hx
    exact encryptedKey_length hrk

/-! ## Boxes -/

/-- `crypto_secretbox` has made one box, from `m` under `n` and `k`. It opens, and no other
combination of a box, a nonce and a key does. -/
structure BoxMade (nacl : Nacl) (m n k : Bytes) : Prop where
  opens : nacl.cryptoSecretboxOpen (nacl.cryptoSecretbox m n k) n k = some m
  rejects : ∀ c n' k', (c, n', k') ≠ (nacl.cryptoSecretbox m n k, n, k) →
    nacl.cryptoSecretboxOpen c n' k' = none

/-- The call of `crypto_secretbox` by `db_encrypt` is the one that has made a box. -/
def Boxed (c : DbCtx nacl) (content nonce rk : Bytes) : Prop :=
  BoxMade nacl (payloadMessage (storageBlockSize - encryptedAt c.readers.length) content) nonce rk

/-- The content of a box: what was put in, and zeros to fill it. -/
def boxContent (nReaders : ℕ) (content : Bytes) : Bytes :=
  content ++ zeros (boxSize nReaders - content.length)

theorem boxSize_le (nReaders : ℕ) : boxSize nReaders + boxOverhead ≤ storageBlockSize := by
  simp only [boxSize, encryptedAt, readerList, storageBlockSize, boxOverhead,
    cryptoBoxPublickeybytes, cryptoSecretboxNoncebytes, cryptoSecretboxKeybytes,
    cryptoSecretboxZerobytes, cryptoSecretboxBoxzerobytes]
  omega

/-- The box and the record key give the content back. -/
theorem Encrypted.dbDecryptPayload_box (h : Encrypted c content nonce rk block)
    (hopen : nacl.cryptoSecretboxOpen (nacl.cryptoSecretbox
      (payloadMessage (storageBlockSize - encryptedAt c.readers.length) content) nonce rk) nonce rk =
        some (payloadMessage (storageBlockSize - encryptedAt c.readers.length) content))
    (hsize : boxSize c.readers.length ≤ size) :
    dbDecryptPayload nacl size (box c content nonce rk) nonce rk =
      some (some (boxContent c.readers.length content)) := by
  have hle := boxSize_le c.readers.length
  have hbuf : ¬ inBufSize < cryptoSecretboxBoxzerobytes + (box c content nonce rk).length := by
    rw [h.box_length]
    simp only [inBufSize, cryptoSecretboxZerobytes, cryptoSecretboxBoxzerobytes]
    omega
  have hmlen : cryptoSecretboxBoxzerobytes + (box c content nonce rk).length -
      cryptoSecretboxZerobytes = boxSize c.readers.length := by
    rw [h.box_length]
    simp only [boxOverhead, cryptoSecretboxZerobytes, cryptoSecretboxBoxzerobytes]
    omega
  have hzero : ¬ (cryptoSecretboxBoxzerobytes + (box c content nonce rk).length <
      cryptoSecretboxZerobytes ∨ size < boxSize c.readers.length) := by
    rw [h.box_length]
    simp only [boxOverhead, cryptoSecretboxZerobytes, cryptoSecretboxBoxzerobytes]
    omega
  unfold dbDecryptPayload
  simp only [h.secretbox, hmlen]
  rw [if_neg hbuf, hopen]
  simp only
  rw [if_neg hzero, h.message, List.drop_left' (zeros_length _), List.take_of_length_le]
  · rfl
  · have hfit := h.fits
    simp only [List.length_append, zeros_length]
    omega

/-- Nothing else opens. -/
theorem dbDecryptPayload_none {m encrypted k : Bytes} (hbox : BoxMade nacl m nonce rk)
    (hlen : encrypted.length ≤ storageBlockSize)
    (hne : (zeros cryptoSecretboxBoxzerobytes ++ encrypted, k) ≠
      (nacl.cryptoSecretbox m nonce rk, rk)) :
    dbDecryptPayload nacl size encrypted nonce k = some none := by
  have hbuf : ¬ inBufSize < cryptoSecretboxBoxzerobytes + encrypted.length := by
    simp only [inBufSize, cryptoSecretboxZerobytes, cryptoSecretboxBoxzerobytes]
    omega
  have hopen : nacl.cryptoSecretboxOpen (zeros cryptoSecretboxBoxzerobytes ++ encrypted) nonce k =
      none := by
    apply hbox.rejects
    intro heq
    simp only [Prod.mk.injEq] at heq
    exact hne (Prod.ext heq.1 heq.2.2)
  unfold dbDecryptPayload
  simp only [hopen]
  exact if_neg hbuf

/-! ## Trials -/

theorem firstOf_none {α β : Type} {trial : α → Option (Option β)} {l : List α}
    (h : ∀ a ∈ l, trial a = some none) : firstOf trial l = some none := by
  induction l with
  | nil => rfl
  | cons a l ih =>
      simp only [firstOf, h a (by simp)]
      exact ih fun x hx => h x (by simp [hx])

/-- If all trials that yield something yield the same, so does the whole search. -/
theorem firstOf_some {α β : Type} {trial : α → Option (Option β)} {l : List α} {b : β}
    (h : ∀ a ∈ l, trial a = some none ∨ trial a = some (some b))
    (hex : ∃ a ∈ l, trial a = some (some b)) : firstOf trial l = some (some b) := by
  induction l with
  | nil => simp at hex
  | cons a l ih =>
      simp only [firstOf]
      rcases h a (by simp) with ha | ha
      · rw [ha]
        apply ih fun x hx => h x (by simp [hx])
        obtain ⟨x, hx, hb⟩ := hex
        rcases List.mem_cons.mp hx with rfl | hx
        · rw [ha] at hb
          cases hb
        · exact ⟨x, hx, hb⟩
      · rw [ha]

/-- The shared secret has the key stream of the reader at some position. -/
def Unlocks (c : DbCtx nacl) (nonce shared : Bytes) : Prop :=
  ∃ i r, c.readers[i]? = some r ∧ keyStream nacl nonce i r.k = keyStream nacl nonce i shared

section

variable (h : Encrypted c content nonce rk block) (hbox : Boxed c content nonce rk)
  (hn : nonce.length = cryptoSecretboxNoncebytes) (hk : rk.length = cryptoSecretboxKeybytes)
include h hbox hn hk

omit hbox in
theorem Encrypted.block_length : block.length = storageBlockSize := by
  have hlen := congrArg List.length (h.encrypted hn hk)
  rw [List.length_drop, h.box_length] at hlen
  have hroom := h.room
  have hpos : 0 < boxOverhead := by decide
  unfold boxSize at hlen
  omega

/-- With the layout for another number of readers, nothing opens. -/
theorem Encrypted.tryLayout_other {shared : Bytes} {nReaders : ℕ}
    (hne : nReaders ≠ c.readers.length)
    (hfit : encryptedAt nReaders + boxOverhead ≤ storageBlockSize) :
    tryLayout nacl size block shared nReaders = some none := by
  apply firstOf_none
  intro i _
  unfold dbTryDecrypt
  rw [h.blockNonce_eq hn]
  apply dbDecryptPayload_none hbox
  · rw [List.length_drop, h.block_length hn hk]
    omega
  · intro heq
    have hlen := congrArg List.length (Prod.mk.inj heq).1
    rw [← h.secretbox, List.length_append, List.length_append, List.length_drop,
      h.block_length hn hk, h.box_length] at hlen
    have hroom := h.room
    unfold boxSize at hlen
    simp only [encryptedAt, cryptoSecretboxKeybytes] at hlen hfit hroom
    omega

/-- With the layout of the block, a position opens the box if the record key is recovered there,
and otherwise nothing does. -/
theorem Encrypted.trial {shared : Bytes} {i : ℕ} {r : Peer} (hr : c.readers[i]? = some r)
    (hsize : boxSize c.readers.length ≤ size) :
    let trial := dbTryDecrypt nacl size block (block.drop (encryptedAt c.readers.length)) i
      ((block.drop (readerList + i * cryptoSecretboxKeybytes)).take cryptoSecretboxKeybytes) shared
    (keyStream nacl nonce i r.k = keyStream nacl nonce i shared →
      trial = some (some (boxContent c.readers.length content))) ∧
    (keyStream nacl nonce i r.k ≠ keyStream nacl nonce i shared → trial = some none) := by
  unfold dbTryDecrypt
  rw [h.blockNonce_eq hn, h.encrypted hn hk, h.encryptedKey hn hk hr]
  constructor
  · intro heq
    rw [(decryptedKey_encryptedKey hk).mpr heq]
    exact h.dbDecryptPayload_box hbox.opens hsize
  · intro hne
    apply dbDecryptPayload_none hbox
    · have hle := boxSize_le c.readers.length
      rw [h.box_length]
      exact hle
    · intro heq
      exact hne ((decryptedKey_encryptedKey hk).mp (Prod.mk.inj heq).2)

theorem Encrypted.tryLayout_unlocks {shared : Bytes} (hsize : boxSize c.readers.length ≤ size)
    (hu : Unlocks c nonce shared) :
    tryLayout nacl size block shared c.readers.length =
      some (some (boxContent c.readers.length content)) := by
  apply firstOf_some
  · intro i hi
    have hlt := List.mem_range.mp hi
    have hr := List.getElem?_eq_getElem hlt
    by_cases heq : keyStream nacl nonce i c.readers[i].k = keyStream nacl nonce i shared
    · exact .inr ((h.trial hbox hn hk hr hsize).1 heq)
    · exact .inl ((h.trial hbox hn hk hr hsize).2 heq)
  · obtain ⟨i, r, hr, heq⟩ := hu
    obtain ⟨hi, -⟩ := List.getElem?_eq_some_iff.mp hr
    exact ⟨i, List.mem_range.mpr hi, (h.trial hbox hn hk hr hsize).1 heq⟩

theorem Encrypted.tryLayout_locked {shared : Bytes} (hsize : boxSize c.readers.length ≤ size)
    (hu : ¬ Unlocks c nonce shared) :
    tryLayout nacl size block shared c.readers.length = some none := by
  apply firstOf_none
  intro i hi
  have hr := List.getElem?_eq_getElem (List.mem_range.mp hi)
  exact (h.trial hbox hn hk hr hsize).2 fun heq => hu ⟨i, _, hr, heq⟩

end

theorem mem_layouts {n : ℕ} (h0 : 0 < n) (hmax : n ≤ dbMaxReaders) : n ∈ layouts := by
  have hall : ∀ n ∈ List.range' 1 dbMaxReaders, n ∈ layouts := by decide
  apply hall
  rw [List.mem_range'_1]
  omega

theorem fits_of_mem_layouts {n : ℕ} (h : n ∈ layouts) :
    encryptedAt n + boxOverhead ≤ storageBlockSize := by
  have hall : ∀ n ∈ layouts, encryptedAt n + boxOverhead ≤ storageBlockSize := by decide
  exact hall n h

/-- A key decrypts the block if its shared secret has the key stream of a reader, and no other
key does. -/
theorem Encrypted.dbDecrypt (h : Encrypted c content nonce rk block)
    (hbox : Boxed c content nonce rk) (hn : nonce.length = cryptoSecretboxNoncebytes)
    (hk : rk.length = cryptoSecretboxKeybytes) (hmax : c.readers.length ≤ dbMaxReaders)
    (hsize : boxSize c.readers.length ≤ size) (sk : Bytes) :
    (Unlocks c nonce (nacl.cryptoBoxBeforenm c.pk sk) →
      dbDecrypt nacl sk size block = some (some (boxContent c.readers.length content))) ∧
    (¬ Unlocks c nonce (nacl.cryptoBoxBeforenm c.pk sk) →
      dbDecrypt nacl sk size block = some none) := by
  have hother : ∀ n ∈ layouts, n ≠ c.readers.length →
      tryLayout nacl size block (nacl.cryptoBoxBeforenm c.pk sk) n = some none := fun n hmem hne =>
    h.tryLayout_other hbox hn hk hne (fits_of_mem_layouts hmem)
  unfold Dbcrypt.dbDecrypt
  simp only [h.writer]
  constructor
  · intro hu
    have hsame := h.tryLayout_unlocks hbox hn hk hsize hu
    apply firstOf_some
    · intro n hmem
      by_cases hne : n = c.readers.length
      · rw [hne]
        exact .inr hsame
      · exact .inl (hother n hmem hne)
    · exact ⟨_, mem_layouts h.readers hmax, hsame⟩
  · intro hu
    apply firstOf_none
    intro n hmem
    by_cases hne : n = c.readers.length
    · rw [hne]
      exact h.tryLayout_locked hbox hn hk hsize hu
    · exact hother n hmem hne

/-- The secret key of a reader gives the shared secret that the writer used. -/
theorem unlocks_reader {r : Peer} (hr : r ∈ c.readers) (hpk : r.pk = nacl.cryptoScalarmultBase sk)
    (nonce : Bytes) : Unlocks c nonce (nacl.cryptoBoxBeforenm c.pk sk) := by
  obtain ⟨i, hi⟩ := List.mem_iff_getElem?.mp hr
  refine ⟨i, r, hi, ?_⟩
  rw [c.shared r hr, hpk, c.pk_eq, nacl.beforenm_symm]

/-- What has been encrypted is decrypted with the secret key of each reader, and with no key
whose shared secret has at no position the key stream of the reader there. -/
theorem dbDecrypt_dbEncrypt (hmax : c.readers.length ≤ dbMaxReaders)
    (hn : nonce.length = cryptoSecretboxNoncebytes) (hk : rk.length = cryptoSecretboxKeybytes)
    (henc : dbEncrypt c content nonce rk = some block) (hbox : Boxed c content nonce rk)
    (hsize : boxSize c.readers.length ≤ size) :
    (∀ r ∈ c.readers, ∀ sk, r.pk = nacl.cryptoScalarmultBase sk →
      dbDecrypt nacl sk size block = some (some (boxContent c.readers.length content))) ∧
    ∀ sk,
      (Unlocks c nonce (nacl.cryptoBoxBeforenm c.pk sk) →
        dbDecrypt nacl sk size block = some (some (boxContent c.readers.length content))) ∧
      (¬ Unlocks c nonce (nacl.cryptoBoxBeforenm c.pk sk) →
        dbDecrypt nacl sk size block = some none) := by
  have hdec := (dbEncrypt_encrypted henc).dbDecrypt hbox hn hk hmax hsize
  exact ⟨fun r hr sk hpk => (hdec sk).1 (unlocks_reader hr hpk nonce), hdec⟩

/-! ## An instance -/

/-- The bits of a secret key that count: the three lowest of the first byte do not. -/
def clamped : Bytes → Bytes
  | [] => []
  | b :: bs => (b &&& 248) :: bs

/-- NaCl without secrecy, where the only box that opens is that of one call. Like those of
`crypto_scalarmult`, its secret keys are clamped. -/
def clampNacl (m n k : Bytes) : Nacl where
  cryptoScalarmultBase sk := (clamped sk ++ zeros 32).take 32
  cryptoBoxBeforenm pk sk := List.zipWith (· ^^^ ·) pk ((clamped sk ++ zeros 32).take 32)
  cryptoStream d _ k := (k ++ k ++ zeros d).take d
  cryptoSecretbox m _ _ := zeros 32 ++ m.drop 32
  cryptoSecretboxOpen c n' k' :=
    if 32 ≤ m.length ∧ (c, n', k') = (zeros 32 ++ m.drop 32, n, k) then some m else none
  publickey_length sk := by simp [cryptoBoxPublickeybytes]
  beforenm_symm a b := List.zipWith_comm_of_comm fun x y => UInt8.xor_comm x y
  stream_length d n k := by
    simp only [List.length_take, List.length_append, zeros_length]
    omega
  secretbox_length m n k h := by
    simp only [cryptoSecretboxZerobytes] at h
    simp only [List.length_append, zeros_length, List.length_drop]
    omega
  secretbox_zeros m n k _ := by
    rw [List.take_append_of_le_length (by decide)]
    rfl
  open_length c n' k' m' h := by
    split at h
    · next hc =>
        obtain rfl := Option.some.inj h
        rw [(Prod.mk.inj hc.2).1, List.length_append, zeros_length, List.length_drop]
        omega
    · cases h

theorem clampNacl_boxMade {m n k : Bytes} (hm : 32 ≤ m.length) :
    BoxMade (clampNacl m n k) m n k where
  opens := if_pos ⟨hm, rfl⟩
  rejects _ _ _ h := if_neg fun hc => h hc.2

/-- A context of a writer and one more reader, and the box it makes of a content. -/
def sharedNacl (nReaders : ℕ) (content : Bytes) : Nacl :=
  clampNacl (payloadMessage (storageBlockSize - encryptedAt nReaders) content) (zeros 24)
    (List.replicate 32 7)

theorem dbDecrypt_dbEncrypt_shared :
    let nacl := sharedNacl 2 [1, 2, 3]
    let c := dbcryptAddReader (dbcryptInit nacl (List.replicate 32 8))
      (nacl.cryptoScalarmultBase (List.replicate 32 16))
    ∃ block, dbEncrypt c [1, 2, 3] (zeros 24) (List.replicate 32 7) = some block ∧
      dbDecrypt nacl (List.replicate 32 16) storageBlockSize block =
        some (some (boxContent 2 [1, 2, 3])) ∧
      dbDecrypt nacl (List.replicate 32 24) storageBlockSize block = some none := by
  intro nacl c
  obtain ⟨block, henc⟩ : ∃ block, dbEncrypt c [1, 2, 3] (zeros 24) (List.replicate 32 7) =
      some block := Option.isSome_iff_exists.mp (by decide +kernel)
  obtain ⟨hreader, hother⟩ := @dbDecrypt_dbEncrypt _ c _ _ _ _ storageBlockSize
    (by decide) (by decide) (by decide) henc (clampNacl_boxMade (by decide +kernel)) (by decide)
  refine ⟨block, henc, ?_, (hother _).2 ?_⟩
  · exact hreader _ (List.mem_append_right _ (List.mem_singleton_self _)) _ rfl
  · rintro ⟨i, r, hr, heq⟩
    match i with
    | 0 =>
        obtain rfl := Option.some.inj hr
        revert heq
        decide +kernel
    | 1 =>
        obtain rfl := Option.some.inj hr
        revert heq
        decide +kernel
    | i + 2 => cases hr

/-- A key that differs from the reader's only in a bit that is cleared decrypts the block too. -/
theorem dbDecrypt_dbEncrypt_fails :
    let nacl := sharedNacl 1 [1, 2, 3]
    let c := dbcryptInit nacl (List.replicate 32 8)
    ∃ block, dbEncrypt c [1, 2, 3] (zeros 24) (List.replicate 32 7) = some block ∧
      Boxed c [1, 2, 3] (zeros 24) (List.replicate 32 7) ∧
      ¬ ∀ sk, sk ≠ List.replicate 32 8 → dbDecrypt nacl sk storageBlockSize block = some none := by
  intro nacl c
  obtain ⟨block, henc⟩ : ∃ block, dbEncrypt c [1, 2, 3] (zeros 24) (List.replicate 32 7) =
      some block := Option.isSome_iff_exists.mp (by decide +kernel)
  have hbox : Boxed c [1, 2, 3] (zeros 24) (List.replicate 32 7) :=
    clampNacl_boxMade (by decide +kernel)
  refine ⟨block, henc, hbox, fun hall => ?_⟩
  have hnone := hall (9 :: List.replicate 31 8) (by decide)
  have hsome := (@Encrypted.dbDecrypt _ _ _ _ _ _ storageBlockSize (dbEncrypt_encrypted henc) hbox
    (by decide) (by decide) (by decide) (by decide) (9 :: List.replicate 31 8)).1
    ⟨0, _, rfl, by decide +kernel⟩
  rw [hnone] at hsome
  cases hsome

end Sunela.Dbcrypt
