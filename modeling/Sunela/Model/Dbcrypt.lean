import Sunela.Model.Storage

/-! # Database encryption

Blocks as `dbcrypt.c` lays them out: the public key of the writer, a nonce, the record key
encrypted for each reader, and a box with the content. The functions of NaCl are parameters. -/

namespace Sunela.Dbcrypt

open Storage

/-! ## NaCl -/

def cryptoBoxPublickeybytes : ℕ := 32

def cryptoSecretboxKeybytes : ℕ := 32

def cryptoSecretboxNoncebytes : ℕ := 24

def cryptoSecretboxZerobytes : ℕ := 32

def cryptoSecretboxBoxzerobytes : ℕ := 16

def zeros (n : ℕ) : Bytes := List.replicate n 0

/-- The functions of NaCl that are used, and what holds of each by itself. Keys and nonces are
strings of bytes. A message starts with 32 zeros, and a box with 16. -/
structure Nacl where
  cryptoScalarmultBase : (sk : Bytes) → Bytes
  cryptoBoxBeforenm : (pk sk : Bytes) → Bytes
  cryptoStream : ℕ → (n k : Bytes) → Bytes
  cryptoSecretbox : (m n k : Bytes) → Bytes
  cryptoSecretboxOpen : (c n k : Bytes) → Option Bytes
  publickey_length : ∀ sk, (cryptoScalarmultBase sk).length = cryptoBoxPublickeybytes
  beforenm_symm : ∀ a b, cryptoBoxBeforenm (cryptoScalarmultBase a) b =
    cryptoBoxBeforenm (cryptoScalarmultBase b) a
  stream_length : ∀ d n k, (cryptoStream d n k).length = d
  secretbox_length : ∀ m n k, cryptoSecretboxZerobytes ≤ m.length →
    (cryptoSecretbox m n k).length = m.length
  secretbox_zeros : ∀ m n k, cryptoSecretboxZerobytes ≤ m.length →
    (cryptoSecretbox m n k).take cryptoSecretboxBoxzerobytes = zeros cryptoSecretboxBoxzerobytes
  open_length : ∀ c n k m, cryptoSecretboxOpen c n k = some m → m.length = c.length

/-- `crypto_stream_xor` adds the key stream to the message. -/
def Nacl.cryptoStreamXor (nacl : Nacl) (m n k : Bytes) : Bytes :=
  List.zipWith (· ^^^ ·) m (nacl.cryptoStream m.length n k)

/-! ## Contexts -/

structure Peer where
  k : Bytes
  pk : Bytes

/-- `struct dbcrypt`, without its unused cache. The keys belong together. -/
structure DbCtx (nacl : Nacl) where
  sk : Bytes
  pk : Bytes
  readers : List Peer
  pk_eq : pk = nacl.cryptoScalarmultBase sk
  shared : ∀ r ∈ readers, r.k = nacl.cryptoBoxBeforenm r.pk sk

def dbcryptInit (nacl : Nacl) (sk : Bytes) : DbCtx nacl where
  sk := sk
  pk := nacl.cryptoScalarmultBase sk
  readers := [⟨nacl.cryptoBoxBeforenm (nacl.cryptoScalarmultBase sk) sk,
    nacl.cryptoScalarmultBase sk⟩]
  pk_eq := rfl
  shared := by simp

def dbcryptAddReader {nacl : Nacl} (c : DbCtx nacl) (pk : Bytes) : DbCtx nacl where
  sk := c.sk
  pk := c.pk
  readers := c.readers ++ [⟨nacl.cryptoBoxBeforenm pk c.sk, pk⟩]
  pk_eq := c.pk_eq
  shared := by
    intro r hr
    rcases List.mem_append.mp hr with hr | hr
    · exact c.shared r hr
    · obtain rfl := List.mem_singleton.mp hr
      rfl

/-! ## Block layout -/

def dbMaxReaders : ℕ := 12

def boxOverhead : ℕ := cryptoSecretboxZerobytes - cryptoSecretboxBoxzerobytes

/-- `sizeof(in_buf)` -/
def inBufSize : ℕ := storageBlockSize + cryptoSecretboxZerobytes

def readerList : ℕ := cryptoBoxPublickeybytes + cryptoSecretboxNoncebytes

/-- Where the box starts, after the record keys of the readers. -/
def encryptedAt (nReaders : ℕ) : ℕ := readerList + nReaders * cryptoSecretboxKeybytes

/-- The nonce under which the record key of a reader is encrypted. -/
def nonce2 (nonce : Bytes) (i : ℕ) : Bytes :=
  match nonce with
  | [] => []
  | b :: bs => (b ^^^ UInt8.ofNat i) :: bs

/-! ## Encrypt -/

/-- The message in `in_buf` that `db_encrypt_payload` gives to `crypto_secretbox`. -/
def payloadMessage (encryptedBytes : ℕ) (content : Bytes) : Bytes :=
  (zeros cryptoSecretboxZerobytes ++ (content ++ zeros (inBufSize - cryptoSecretboxZerobytes -
    content.length))).take (cryptoSecretboxZerobytes - boxOverhead + encryptedBytes)

/-- The result of a call. There is none if an assertion fails. -/
def dbEncryptPayload (nacl : Nacl) (encryptedBytes : ℕ) (content nonce rk : Bytes) :
    Option Bytes :=
  let mlen := cryptoSecretboxZerobytes - boxOverhead + encryptedBytes
  if inBufSize < mlen then none
  else
    some (((nacl.cryptoSecretbox (payloadMessage encryptedBytes content) nonce rk).drop
      cryptoSecretboxBoxzerobytes).take (mlen - cryptoSecretboxBoxzerobytes))

/-- The record key, encrypted for the reader at position `i` of the list. -/
def encryptedKey (nacl : Nacl) (nonce rk : Bytes) (i : ℕ) (k : Bytes) : Bytes :=
  ((nacl.cryptoStreamXor (zeros cryptoSecretboxZerobytes ++ rk) (nonce2 nonce (i + 1)) k).drop
    cryptoSecretboxZerobytes).take cryptoSecretboxKeybytes

/-- `db_encrypt`, with the nonce and the record key that were drawn. -/
def dbEncrypt {nacl : Nacl} (c : DbCtx nacl) (content nonce rk : Bytes) : Option Bytes :=
  let nReaders := c.readers.length
  let encryptedBytes := storageBlockSize - encryptedAt nReaders
  if nReaders = 0 then none
  else if storageBlockSize < encryptedAt nReaders + boxOverhead then none
  else if encryptedBytes < content.length + boxOverhead then none
  else do
    let encrypted ← dbEncryptPayload nacl encryptedBytes content nonce rk
    return c.pk ++ (nonce ++ ((c.readers.mapIdx fun i r =>
      encryptedKey nacl nonce rk i r.k).flatten ++ encrypted))

/-! ## Decrypt -/

/-- The inner result is the content, unless the box could not be opened. -/
def dbDecryptPayload (nacl : Nacl) (size : ℕ) (encrypted nonce rk : Bytes) :
    Option (Option Bytes) :=
  let mlen := cryptoSecretboxBoxzerobytes + encrypted.length
  if inBufSize < mlen then none
  else
    match nacl.cryptoSecretboxOpen (zeros cryptoSecretboxBoxzerobytes ++ encrypted) nonce rk with
    | none => some none
    | some out =>
        let length := mlen - cryptoSecretboxZerobytes
        if mlen < cryptoSecretboxZerobytes ∨ size < length then none
        else some (some ((out.drop cryptoSecretboxZerobytes).take length))

/-- The record key that the shared secret gives for position `i`. -/
def decryptedKey (nacl : Nacl) (nonce ek : Bytes) (i : ℕ) (shared : Bytes) : Bytes :=
  ((nacl.cryptoStreamXor (zeros cryptoSecretboxZerobytes ++ ek) (nonce2 nonce (i + 1)) shared).drop
    cryptoSecretboxZerobytes).take cryptoSecretboxKeybytes

def blockNonce (block : Bytes) : Bytes :=
  (block.drop cryptoBoxPublickeybytes).take cryptoSecretboxNoncebytes

def dbTryDecrypt (nacl : Nacl) (size : ℕ) (block encrypted : Bytes) (i : ℕ) (ek shared : Bytes) :
    Option (Option Bytes) :=
  dbDecryptPayload nacl size encrypted (blockNonce block)
    (decryptedKey nacl (blockNonce block) ek i shared)

/-- The first of a list of trials that yields something. -/
def firstOf {α β : Type} (trial : α → Option (Option β)) : List α → Option (Option β)
  | [] => some none
  | a :: as =>
      match trial a with
      | none => none
      | some (some b) => some (some b)
      | some none => firstOf trial as

/-- The trials with a layout for `nReaders` readers. -/
def tryLayout (nacl : Nacl) (size : ℕ) (block shared : Bytes) (nReaders : ℕ) :
    Option (Option Bytes) :=
  firstOf (fun i =>
    let ek := (block.drop (readerList + i * cryptoSecretboxKeybytes)).take cryptoSecretboxKeybytes
    dbTryDecrypt nacl size block (block.drop (encryptedAt nReaders)) i ek shared)
    (List.range nReaders)

/-- The layouts that are tried, up to the first that leaves no room for a box. -/
def layouts : List ℕ :=
  (List.range' 1 dbMaxReaders).takeWhile fun nReaders =>
    encryptedAt nReaders + boxOverhead ≤ storageBlockSize

def dbDecrypt (nacl : Nacl) (sk : Bytes) (size : ℕ) (block : Bytes) : Option (Option Bytes) :=
  let wpk := block.take cryptoBoxPublickeybytes
  let shared := nacl.cryptoBoxBeforenm wpk sk
  firstOf (tryLayout nacl size block shared) layouts

end Sunela.Dbcrypt
