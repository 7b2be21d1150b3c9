import Sunela.Verification.Alloc.Allocation
import Sunela.Verification.Dbcrypt.Instance
import Sunela.Verification.Dbcrypt.Sizes

/-! # The life cycle of a block

A block is erased, written and deleted. Each time, it is recognized for what it has become, for any
number of readers. -/

namespace Sunela.Dbcrypt

open Program Storage Block Database

variable {nacl : Nacl} {content nonce rk : Bytes}

/-- What has been encrypted is decrypted by the writer. -/
def DbCtx.RoundTrips (c : DbCtx nacl) : Prop :=
  ∀ content nonce rk block : Bytes, nonce.length = cryptoSecretboxNoncebytes →
    rk.length = cryptoSecretboxKeybytes → dbEncrypt c content nonce rk = some block →
    dbDecrypt nacl c.sk storageBlockSize block =
      some (some (boxContent c.readers.length content))

/-- A writer whose encryption round-trips, and whose key looks like the start of a block. -/
structure Writer (nacl : Nacl) where
  ctx : DbCtx nacl
  readers : 0 < ctx.readers.length ∧ ctx.readers.length ≤ dbMaxReaders
  roundTrips : ctx.RoundTrips
  recognizable : Recognizable ctx.pk

/-- What fits is encrypted, into a whole block. -/
theorem Writer.encrypts (w : Writer nacl) (hn : nonce.length = cryptoSecretboxNoncebytes)
    (hk : rk.length = cryptoSecretboxKeybytes)
    (hfit : content.length ≤ boxSize w.ctx.readers.length) :
    dbEncrypt w.ctx content nonce rk = some (asBlock (dbEncrypt w.ctx content nonce rk)).bytes := by
  have hsome : (dbEncrypt w.ctx content nonce rk).isSome :=
    dbEncrypt_isSome.mpr ⟨w.readers.1, (boxSize_eq w.readers.2).1, hfit⟩
  obtain ⟨block, hblock⟩ := Option.isSome_iff_exists.mp hsome
  have hlen := (dbEncrypt_encrypted hblock).block_length hn hk
  rw [hblock, asBlock, dif_pos hlen]

theorem boxSize_mem {n : ℕ} (h : n ∈ layouts) :
    headerSize ≤ boxSize n ∧ boxSize n ≤ storageBlockSize := by
  have hall : ∀ n ∈ layouts, headerSize ≤ boxSize n ∧ boxSize n ≤ storageBlockSize := by decide
  exact hall n h

/-- The encryption of blocks by a writer. -/
def Writer.dbcrypt (w : Writer nacl) : Dbcrypt where
  capacity := boxSize w.ctx.readers.length
  encrypt nonce rk content := asBlock (dbEncrypt w.ctx content nonce rk)
  decrypt b := (dbDecrypt nacl w.ctx.sk storageBlockSize b.bytes).join
  capacity_le := boxSize_mem (mem_layouts w.readers.1 w.readers.2)
  decrypt_length b content h := by
    obtain ⟨n, hn, hlen⟩ := dbDecrypt_length b.size (Option.join_eq_some_iff.mp h)
    rw [hlen]
    exact boxSize_mem hn
  decrypt_encrypt nonce rk content hn hk hfit := by
    rw [w.roundTrips content nonce rk _ hn hk (w.encrypts hn hk hfit)]
    rfl
  classify_encrypt nonce rk content hn hk hfit := by
    have hw := (dbEncrypt_encrypted (w.encrypts hn hk hfit)).writer
    have htake : (asBlock (dbEncrypt w.ctx content nonce rk)).bytes.take dbNonceSize =
        w.ctx.pk.take dbNonceSize := by
      rw [← hw, List.take_take]
      rfl
    apply classifyBlock_data
    · rw [htake]
      exact w.recognizable.not_deleted
    · rw [htake]
      exact w.recognizable.not_erased

theorem roundTrips_init (hopen : nacl.Opens) (sk : Bytes) :
    (dbcryptInit nacl sk).RoundTrips := fun _ _ _ _ hn hk h =>
  (dbEncrypt_encrypted h).dbDecrypt_init hopen hn hk

/-- The writer who is the only reader. -/
def Writer.init (nacl : Nacl) (sk : Bytes) (hopen : nacl.Opens)
    (hpk : Recognizable (nacl.cryptoScalarmultBase sk)) : Writer nacl where
  ctx := dbcryptInit nacl sk
  readers := ⟨Nat.one_pos, (by decide : 1 ≤ dbMaxReaders)⟩
  roundTrips := roundTrips_init hopen sk
  recognizable := hpk

theorem Writer.init_dbcrypt (nacl : Nacl) (sk : Bytes) (hopen : nacl.Opens)
    (hpk : Recognizable (nacl.cryptoScalarmultBase sk)) :
    (Writer.init nacl sk hopen hpk).dbcrypt = nacl.dbcrypt sk hopen hpk := rfl

/-- The record of a type that is found in a block. -/
def recordContents (type : BlockType) (seq : UInt16) (payload : Bytes) : Contents :=
  match type with
  | .data => .data seq payload
  | .settings => .settings seq payload
  | _ => .invalid

/-- The first block of the group that is erased with a block. -/
def groupStart (n : ℕ) : ℕ := n / storageEraseSize * storageEraseSize

/-- What is read of a block after an operation on it. -/
structure LifeCycle (env : Env) (f : Flash) (n : ℕ) : Prop where
  deleted : wp (ending Works) (blockDelete env n)
    (fun ok g => ok = true ∧ contents env.c g n = .deleted) f
  erased : wp (ending Works) (storageEraseBlocks (groupStart n) storageEraseSize)
    (fun ok g => ok = true ∧ contents env.c g n = .erased) f
  written : contents env.c f n = .erased → ∀ type, type = .data ∨ type = .settings →
    ∀ seq payload, headerSize + payload.length ≤ env.c.capacity →
    wp (ending Works) (blockWrite env type seq payload n) (fun ok g => ok = true ∧
      contents env.c g n = recordContents type seq
        (payload ++ zeros (env.c.capacity - (headerSize + payload.length)))) f

/-! ## What is written and read -/

variable {env : Env} {f : Flash} {n : ℕ}

theorem contents_of_cell (hb : f.bad n = false) :
    contents env.c f n = blockRead env.c (some (f.cells n)) := by
  rw [contents, storageReadBlock, if_neg (by simp [hb])]

theorem wp_write_works {b : Storage.Block} {Q : Bool → Flash → Prop}
    (h : Q true (f.set n ((f.cells n).program b))) :
    wp (ending Works) (storageWriteBlock b n) Q f := by
  refine ⟨trivial, fun ok g hs => ?_⟩
  cases hs with
  | write => exact h
  | writeFail _ _ _ hx => exact hx.elim

/-- Whatever is drawn, the encrypted block is written over an erased one. -/
theorem wp_encrypted_works (hcell : f.cells n = erasedBlock) {content : Bytes}
    (hfit : content.length ≤ env.c.capacity) {Q : Bool → Flash → Prop}
    (hQ : ∀ nonce rk : Bytes, nonce.length = 24 → rk.length = 32 →
      Q true (f.set n (env.c.encrypt nonce rk content))) :
    wp (ending Works) (Block.dbEncrypt env.c content >>= fun b => storageWriteBlock b n) Q f := by
  unfold Block.dbEncrypt
  rw [if_neg (Nat.not_lt_of_le hfit)]
  refine ⟨trivial, fun nonce g hs => ?_⟩
  cases hs with
  | random _ _ hn =>
      refine ⟨trivial, fun rk g hs => ?_⟩
      cases hs with
      | random _ _ hk =>
          refine wp_write_works ?_
          rw [hcell, program_erasedBlock]
          exact hQ nonce rk hn hk

theorem blockRange_of_mem (hn : n ∈ dbBlocks env) :
    ¬ (n < reservedBlocks ∨ env.storageBlocks ≤ n) := by
  have hmem := List.mem_range'_1.mp hn
  omega

/-- A record that fits is written to an erased block, and read back with the payload padded. -/
theorem wp_blockWrite_works (hn : n ∈ dbBlocks env) (he : contents env.c f n = .erased)
    {type : BlockType} (htype : type = .data ∨ type = .settings) (seq : UInt16) {payload : Bytes}
    (hfit : headerSize + payload.length ≤ env.c.capacity) :
    wp (ending Works) (blockWrite env type seq payload n) (fun ok g => ok = true ∧
      contents env.c g n = recordContents type seq
        (payload ++ zeros (env.c.capacity - (headerSize + payload.length)))) f := by
  obtain ⟨hb, hcell⟩ := contents_eq_erased he
  have hbuffer : ¬ storageBlockSize < headerSize + payload.length := by
    have hle := env.c.capacity_le.2
    omega
  have hread : ∀ code nonce rk, nonce.length = 24 → rk.length = 32 →
      contents env.c (f.set n (env.c.encrypt nonce rk (packed code seq payload))) n =
        unpack (packed code seq (padded env.c payload)) := by
    intro code nonce rk hnonce hrk
    rw [contents_of_cell (by exact hb), Flash.set_self]
    exact blockRead_encrypt hnonce hrk (by rwa [packed_length])
  unfold blockWrite
  rw [if_neg (blockRange_of_mem hn), if_neg hbuffer]
  rcases htype with rfl | rfl
  · refine wp_encrypted_works hcell (by rwa [packed_length]) fun nonce rk hnonce hrk => ⟨rfl, ?_⟩
    rw [hread 4 nonce rk hnonce hrk, unpack_packed]
    rfl
  · refine wp_encrypted_works hcell (by rwa [packed_length]) fun nonce rk hnonce hrk => ⟨rfl, ?_⟩
    rw [hread 5 nonce rk hnonce hrk, unpack_packed]
    rfl

theorem mem_group (n : ℕ) : groupStart n ≤ n ∧ n < groupStart n + storageEraseSize := by
  have hdiv := Nat.div_add_mod n storageEraseSize
  have hmod := Nat.mod_lt n storageEraseSize_pos
  rw [groupStart, Nat.mul_comm]
  omega

theorem lifeCycle_of_mem (hn : n ∈ dbBlocks env) (hb : f.bad n = false) : LifeCycle env f n where
  deleted := by
    unfold blockDelete
    rw [if_neg (blockRange_of_mem hn)]
    refine wp_write_works ⟨rfl, ?_⟩
    rw [contents_of_cell (by exact hb), Flash.set_self, program_zeroBlock, blockRead_zeroBlock]
  erased := by
    refine ⟨trivial, fun ok g hs => ?_⟩
    cases hs with
    | erase =>
        refine ⟨rfl, ?_⟩
        rw [contents_of_cell (by exact hb), Flash.setRange_of_mem _ _ (mem_group n),
          blockRead_erasedBlock]
    | eraseFail _ _ _ hx => exact (hx n).elim
  written := fun he type htype seq payload hfit => wp_blockWrite_works hn he htype seq hfit

/-- Whatever was in a block, it is read as deleted, erased, or with its record, as the last
operation has left it. -/
theorem Writer.lifeCycle (w : Writer nacl) {storageBlocks n : ℕ}
    (hn : n ∈ dbBlocks ⟨storageBlocks, w.dbcrypt⟩) {f : Flash} (hb : f.bad n = false) :
    LifeCycle ⟨storageBlocks, w.dbcrypt⟩ f n :=
  lifeCycle_of_mem hn hb

/-- NaCl without secrecy, where every box opens. -/
def openNacl : Nacl where
  cryptoScalarmultBase sk := (sk ++ zeros 32).take 32
  cryptoBoxBeforenm pk sk := List.zipWith (· ^^^ ·) pk ((sk ++ zeros 32).take 32)
  cryptoStream d _ k := (k ++ zeros d).take d
  cryptoSecretbox m _ _ := zeros 16 ++ m.drop 16
  cryptoSecretboxOpen c _ _ := some c
  publickey_length sk := by simp [cryptoBoxPublickeybytes]
  beforenm_symm a b := List.zipWith_comm_of_comm fun x y => UInt8.xor_comm x y
  stream_length d n k := by
    rw [List.length_take, List.length_append, zeros_length]
    omega
  secretbox_length m n k h := by
    simp only [cryptoSecretboxZerobytes] at h
    rw [List.length_append, zeros_length, List.length_drop]
    omega
  secretbox_zeros m n k _ := List.take_left' (zeros_length _)
  open_length c n k m h := by rw [Option.some.inj h]

theorem openNacl_opens : openNacl.Opens := by
  intro m n k h
  have hstart : m.take 16 = zeros 16 := by
    have htake := congrArg (List.take 16) h
    rwa [List.take_take] at htake
  change some (zeros 16 ++ m.drop 16) = some m
  rw [← hstart, List.take_append_drop]

/-- The only reader is a writer with a key of eights. -/
def openWriter : Writer openNacl :=
  .init openNacl (List.replicate 32 8) openNacl_opens ⟨by decide, by decide⟩

theorem lifeCycle_open :
    LifeCycle ⟨16, openWriter.dbcrypt⟩ ⟨fun _ => zeroBlock, fun _ => false⟩ 9 :=
  openWriter.lifeCycle (by decide) rfl

end Sunela.Dbcrypt
