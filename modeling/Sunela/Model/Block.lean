import Sunela.Model.Storage

/-! # Block-level operations

A block is classified by its first bytes; what looks like data is decrypted. The encryption
itself is a parameter that returns what was put in. -/

namespace Sunela.Block

open Program Storage

def padBlocks : ℕ := 8

def reservedBlocks : ℕ := padBlocks

def dbNonceSize : ℕ := 24

/-- `sizeof(struct block_header)` -/
def headerSize : ℕ := 4

/-- `enum block_type` -/
inductive BlockType where
  | error
  | deleted
  | erased
  | invalid
  | empty
  | data
  | settings
  deriving DecidableEq

def classifyBlock (b : Block) : BlockType :=
  match b.bytes with
  | [] => .data
  | first :: rest =>
      if first = 0 then
        if (rest.take (dbNonceSize - 1)).all (· == 0) then .deleted else .data
      else if first = 0xff then
        if (rest.take (dbNonceSize - 1)).all (· == 0xff) then
          if (rest.drop (dbNonceSize - 1)).all (· == 0xff) then .erased else .invalid
        else .data
      else .data

/-- The encryption of blocks with one key. It pads the content with zeros up to `capacity`,
gives the content back when the block is decrypted, and never produces a block that looks
erased or deleted. -/
structure Dbcrypt where
  capacity : ℕ
  encrypt : (nonce rk content : Bytes) → Block
  decrypt : Block → Option Bytes
  capacity_le : headerSize ≤ capacity ∧ capacity ≤ storageBlockSize
  decrypt_length : ∀ b content, decrypt b = some content →
    headerSize ≤ content.length ∧ content.length ≤ storageBlockSize
  decrypt_encrypt : ∀ nonce rk content : Bytes, nonce.length = 24 → rk.length = 32 →
    content.length ≤ capacity →
    decrypt (encrypt nonce rk content) =
      some (content ++ List.replicate (capacity - content.length) 0)
  classify_encrypt : ∀ nonce rk content : Bytes, nonce.length = 24 → rk.length = 32 →
    content.length ≤ capacity → classifyBlock (encrypt nonce rk content) = .data

/-- What stays fixed while a database is open: the size of the storage and the key. -/
structure Env where
  storageBlocks : ℕ
  c : Dbcrypt

/-! ## Block headers -/

/-- A sequence number as the two bytes of a little-endian integer. -/
def seqBytes (seq : UInt16) : Bytes :=
  [UInt8.ofNat (seq.toNat % 256), UInt8.ofNat (seq.toNat / 256)]

def seqOfBytes (lo hi : UInt8) : UInt16 := UInt16.ofNat (lo.toNat + 256 * hi.toNat)

theorem seqOfBytes_seqBytes (seq : UInt16) :
    seqOfBytes (UInt8.ofNat (seq.toNat % 256)) (UInt8.ofNat (seq.toNat / 256)) = seq := by
  have h := seq.toNat_lt
  apply UInt16.toNat_inj.mp
  simp only [seqOfBytes, UInt16.toNat_ofNat', UInt8.toNat_ofNat']
  omega

/-- What `block_read` reports about a block. -/
inductive Contents where
  | error
  | deleted
  | erased
  | invalid
  | empty
  | data (seq : UInt16) (payload : Bytes)
  | settings (seq : UInt16) (payload : Bytes)
  deriving DecidableEq

/-- The record of an entry or of the settings. -/
def Contents.IsRecord : Contents → Prop
  | .data _ _ => True
  | .settings _ _ => True
  | _ => False

/-- The decrypted content, by the type in its header. -/
def unpack : Bytes → Contents
  | type :: _ :: lo :: hi :: payload =>
      if type = 4 then .data (seqOfBytes lo hi) payload
      else if type = 5 then .settings (seqOfBytes lo hi) payload
      else if type = 3 then .empty
      else .invalid
  | _ => .invalid

def blockRead (c : Dbcrypt) : Option Block → Contents
  | none => .error
  | some b =>
      match classifyBlock b with
      | .deleted => .deleted
      | .erased => .erased
      | .invalid => .invalid
      | _ =>
          match c.decrypt b with
          | none => .invalid
          | some content => unpack content

/-- What is found in block `n`. -/
def contents (c : Dbcrypt) (f : Flash) (n : ℕ) : Contents := blockRead c (storageReadBlock f n)

def blockValidate (c : Dbcrypt) (f : Flash) (n : ℕ) : Bool :=
  match storageReadBlock f n with
  | none => false
  | some b => (c.decrypt b).isSome

/-! ## Writing -/

def packed (type : UInt8) (seq : UInt16) (payload : Bytes) : Bytes :=
  type :: 0 :: (seqBytes seq ++ payload)

theorem packed_length (type : UInt8) (seq : UInt16) (payload : Bytes) :
    (packed type seq payload).length = headerSize + payload.length := by
  simp [packed, seqBytes, headerSize]
  omega

/-- `db_encrypt`, with its assertion that the content fits. -/
def dbEncrypt (c : Dbcrypt) (content : Bytes) : Fw Block :=
  if c.capacity < content.length then .halt
  else do
    let nonce ← rndBytes 24
    let rk ← rndBytes 32
    return c.encrypt nonce rk content

/-- The assertions that a block number is in range. -/
def blockRange : ℕ := 1

def blockWrite (env : Env) (type : BlockType) (seq : UInt16) (payload : Bytes) (n : ℕ) :
    Fw Bool :=
  if n < reservedBlocks ∨ env.storageBlocks ≤ n then .halt blockRange
  else if storageBlockSize < headerSize + payload.length then .halt
  else
    match type with
    | .empty => do storageWriteBlock (← dbEncrypt env.c (packed 3 seq [])) n
    | .data => do storageWriteBlock (← dbEncrypt env.c (packed 4 seq payload)) n
    | .settings => do storageWriteBlock (← dbEncrypt env.c (packed 5 seq payload)) n
    | _ => .halt

def blockDelete (env : Env) (n : ℕ) : Fw Bool :=
  if n < reservedBlocks ∨ env.storageBlocks ≤ n then .halt blockRange
  else storageWriteBlock zeroBlock n

/-! ## What is read back -/

theorem classifyBlock_erasedBlock : classifyBlock erasedBlock = .erased := by decide +kernel

theorem classifyBlock_zeroBlock : classifyBlock zeroBlock = .deleted := by decide +kernel

/-- A block that reads as erased has every bit set. -/
theorem eq_erasedBlock_of_classify {b : Block} (h : classifyBlock b = .erased) :
    b = erasedBlock := by
  obtain ⟨bytes, size⟩ := b
  ext1
  simp only [erasedBlock, Block.fill]
  cases bytes with
  | nil => simp [storageBlockSize] at size
  | cons first rest =>
      simp only [classifyBlock] at h
      split at h
      · split at h <;> simp at h
      · split at h
        · next hfirst =>
            split at h
            · next hhead =>
                split at h
                · next htail =>
                    rw [← size, List.length_cons, List.replicate_succ, hfirst]
                    congr 1
                    apply List.eq_replicate_of_mem
                    intro x hx
                    rw [← List.take_append_drop (dbNonceSize - 1) rest] at hx
                    rcases List.mem_append.mp hx with hx | hx
                    · simpa using List.all_eq_true.mp hhead x hx
                    · simpa using List.all_eq_true.mp htail x hx
                · simp at h
            · simp at h
        · simp at h

variable {c : Dbcrypt}

theorem blockRead_erasedBlock : blockRead c (some erasedBlock) = .erased := by
  simp [blockRead, classifyBlock_erasedBlock]

theorem blockRead_zeroBlock : blockRead c (some zeroBlock) = .deleted := by
  simp [blockRead, classifyBlock_zeroBlock]

theorem unpack_packed (type : UInt8) (seq : UInt16) (payload : Bytes) :
    unpack (packed type seq payload) =
      if type = 4 then .data seq payload
      else if type = 5 then .settings seq payload
      else if type = 3 then .empty
      else .invalid := by
  simp only [packed, seqBytes, List.cons_append, List.nil_append, unpack, seqOfBytes_seqBytes]

/-- The payload as it comes back, padded with zeros. -/
def padded (c : Dbcrypt) (payload : Bytes) : Bytes :=
  payload ++ List.replicate (c.capacity - (headerSize + payload.length)) 0

/-- What was encrypted is read back, with the payload padded. -/
theorem blockRead_encrypt {nonce rk payload : Bytes} {type : UInt8} {seq : UInt16}
    (hn : nonce.length = 24) (hk : rk.length = 32)
    (hl : (packed type seq payload).length ≤ c.capacity) :
    blockRead c (some (c.encrypt nonce rk (packed type seq payload))) =
      unpack (packed type seq (padded c payload)) := by
  simp only [blockRead, c.classify_encrypt nonce rk _ hn hk hl,
    c.decrypt_encrypt nonce rk _ hn hk hl]
  congr 1
  rw [packed_length]
  simp [packed, padded, seqBytes]

theorem not_isRecord_of_decrypt {b : Block} (h : c.decrypt b = none) :
    ¬ (blockRead c (some b)).IsRecord := by
  simp only [blockRead, h]
  split <;> simp [Contents.IsRecord]

theorem contents_of_cells_eq {f g : Flash} {n : ℕ} (hc : f.cells n = g.cells n)
    (hb : f.bad = g.bad) : contents c f n = contents c g n := by
  simp [contents, storageReadBlock, hc, hb]

private theorem unpack_ne_erased (content : Bytes) : unpack content ≠ .erased := by
  unfold unpack
  split
  · split_ifs <;> simp
  · simp

private theorem classify_of_blockRead {b : Block} (h : blockRead c (some b) = .erased) :
    classifyBlock b = .erased := by
  simp only [blockRead] at h
  cases hb : classifyBlock b with
  | erased => rfl
  | deleted => simp [hb] at h
  | invalid => simp [hb] at h
  | _ =>
      simp only [hb] at h
      cases hd : c.decrypt b with
      | none => simp [hd] at h
      | some content =>
          simp only [hd] at h
          exact absurd h (unpack_ne_erased content)

/-- A block reported as erased can be read and has every bit set. -/
theorem contents_eq_erased {f : Flash} {n : ℕ} (h : contents c f n = .erased) :
    f.bad n = false ∧ f.cells n = erasedBlock := by
  unfold contents storageReadBlock at h
  split at h
  · simp [blockRead] at h
  · next hbad =>
      exact ⟨by simpa using hbad, eq_erasedBlock_of_classify (classify_of_blockRead h)⟩

theorem bad_eq_false {f : Flash} {n : ℕ} (h : contents c f n ≠ .error) : f.bad n = false := by
  cases hb : f.bad n with
  | false => rfl
  | true => simp [contents, storageReadBlock, hb, blockRead] at h

end Sunela.Block
