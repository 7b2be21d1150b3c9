import Sunela.Model.Operation
import Sunela.Verification.Open.Scan

/-! # Storage without secrecy

An instance of what is assumed of the encryption, and small storages to try things on. -/

namespace Sunela.Database

open Program Storage Block Fields Entry

theorem plainCrypt_size (content : Bytes) : (List.replicate 32 1 ++
    (content ++ List.replicate (992 - content.length) 0).take 992).length = storageBlockSize := by
  simp only [List.length_append, List.length_replicate, List.length_take, storageBlockSize]
  omega

/-- The content behind 32 bytes that mark the block as written. -/
def plainCrypt : Dbcrypt where
  capacity := 992
  encrypt _ _ content :=
    ⟨List.replicate 32 1 ++ (content ++ List.replicate (992 - content.length) 0).take 992,
      plainCrypt_size content⟩
  decrypt b := if b.bytes.take 32 = List.replicate 32 1 then some (b.bytes.drop 32) else none
  capacity_le := by decide
  decrypt_length := by
    intro b content h
    split at h
    · have hl := congrArg List.length (Option.some.inj h)
      rw [List.length_drop, b.size] at hl
      rw [← hl]
      decide
    · simp at h
  decrypt_encrypt := by
    intro nonce rk content _ _ hl
    have htake : (content ++ List.replicate (992 - content.length) 0).take 992 =
        content ++ List.replicate (992 - content.length) 0 := by
      apply List.take_of_length_le
      simp only [List.length_append, List.length_replicate]
      omega
    simp only [htake]
    rw [List.take_left' (by simp), if_pos rfl, List.drop_left' (by simp)]
  classify_encrypt := by
    intro nonce rk content _ _ _
    rfl

def plainEnv (storageBlocks : ℕ) : Env := ⟨storageBlocks, plainCrypt⟩

def nameField (s : Bytes) : DbField := .ofData ftId s

/-- The block of a record. -/
def plainBlock (seq : UInt16) (fs : List DbField) : Block :=
  plainCrypt.encrypt (List.replicate 24 0) (List.replicate 32 0)
    (packed 4 seq (fs.flatMap encodeField))

/-- A storage that holds records in some blocks and is erased elsewhere. -/
def plainFlash (l : List (ℕ × UInt16 × List DbField)) : Flash where
  cells n := (l.lookup n).elim erasedBlock fun r => plainBlock r.1 r.2
  bad _ := false

/-- The records of such a storage. -/
def plainRecord (l : List (ℕ × UInt16 × List DbField)) (n : ℕ) : Option Record :=
  (l.lookup n).bind fun r =>
    match r.2 with
    | [] => none
    | id :: _ => some ⟨n, r.1, splitPath id.data, r.2⟩

/-- The state after opening a storage, with no settings in force before. -/
def afterOpen (env : Env) (f : Flash) : State where
  db := ((dbOpen env ⟨false, false, false, 0⟩ f).map Prod.fst).getD dbOpenEmpty
  flash := f

theorem opens_afterOpen (env : Env) (f : Flash) : Opens env (afterOpen env f) := by
  obtain ⟨s, hs, -⟩ := dbOpen_opened env ⟨false, false, false, 0⟩ f
  exact ⟨⟨false, false, false, 0⟩, s.2, by simp [afterOpen, hs]⟩

/-- The state after a call in which nothing fails. -/
def afterCall (env : Env) (c : Call) (s : State) : State :=
  let r := run answer (c.exec env s.db) s.flash
  { db := (r.1.result?.map Prod.snd).getD s.db, flash := r.2 }

/-- What the call returns, if it does. -/
def callResult (env : Env) (c : Call) (s : State) : Option Bool :=
  (run answer (c.exec env s.db) s.flash).1.result?.map Prod.fst

theorem ends_afterCall (env : Env) (c : Call) (s : State) {ok : Bool}
    (h : callResult env c s = some ok) :
    Ends Works (fun db => c.exec env db) s ok (afterCall env c s) := by
  obtain ⟨r, hr, rfl⟩ := Option.map_eq_some_iff.mp h
  have hdb : (afterCall env c s).db = r.2 := by simp [afterCall, hr]
  unfold Ends
  rw [hdb]
  exact returns_run answer_works hr

/-- The state after a program in which nothing fails. -/
def afterRun (p : Db → Fw (Bool × Db)) (s : State) : State :=
  let r := run answer (p s.db) s.flash
  { db := (r.1.result?.map Prod.snd).getD s.db, flash := r.2 }

/-- What the program returns, if it does. -/
def runResult (p : Db → Fw (Bool × Db)) (s : State) : Option Bool :=
  (run answer (p s.db) s.flash).1.result?.map Prod.fst

theorem ends_afterRun (p : Db → Fw (Bool × Db)) (s : State) {ok : Bool}
    (h : runResult p s = some ok) : Ends Works p s ok (afterRun p s) := by
  obtain ⟨r, hr, rfl⟩ := Option.map_eq_some_iff.mp h
  have hdb : (afterRun p s).db = r.2 := by simp [afterRun, hr]
  unfold Ends
  rw [hdb]
  exact returns_run answer_works hr

/-- The fields make a record that fits a block. -/
def PlainOk (fs : List DbField) : Prop :=
  fs.Pairwise (fun f g => f.type ≤ g.type) ∧ fs.head?.map DbField.type = some ftId ∧
    (fs.flatMap encodeField).length ≤ 988

instance (fs : List DbField) : Decidable (PlainOk fs) :=
  inferInstanceAs (Decidable (_ ∧ _ ∧ _))

theorem plainFlash_contents {l : List (ℕ × UInt16 × List DbField)}
    (h : ∀ r ∈ l, PlainOk r.2.2) (n : ℕ) :
    contents plainCrypt (plainFlash l) n = (l.lookup n).elim .erased fun r =>
      .data r.1 (padded plainCrypt (r.2.flatMap encodeField)) := by
  cases hl : l.lookup n with
  | none =>
      have hcell : (plainFlash l).cells n = erasedBlock := by simp [plainFlash, hl]
      unfold contents storageReadBlock
      rw [hcell]
      exact blockRead_erasedBlock
  | some r =>
      obtain ⟨seq, fs⟩ := r
      have hcell : (plainFlash l).cells n = plainBlock seq fs := by simp [plainFlash, hl]
      obtain ⟨l₁, l₂, hmem⟩ := List.lookup_eq_some_iff.mp hl
      have hfit : (fs.flatMap encodeField).length ≤ 988 :=
        (h (n, seq, fs) (by rw [hmem.1]; simp)).2.2
      refine contents_encrypt (List.length_replicate ..) (List.length_replicate ..) ?_ rfl hcell
      rw [packed_length]
      simp only [headerSize, plainCrypt]
      omega

theorem plainFlash_recordIn {l : List (ℕ × UInt16 × List DbField)}
    (h : ∀ r ∈ l, PlainOk r.2.2) (storageBlocks n : ℕ) :
    recordIn (plainEnv storageBlocks) (plainFlash l) n = plainRecord l n := by
  have hc : contents (plainEnv storageBlocks).c (plainFlash l) n = _ := plainFlash_contents h n
  unfold plainRecord
  cases hl : l.lookup n with
  | none =>
      rw [hl] at hc
      simp [recordIn, hc]
  | some r =>
      obtain ⟨seq, fs⟩ := r
      rw [hl] at hc
      obtain ⟨l₁, l₂, hmem⟩ := List.lookup_eq_some_iff.mp hl
      obtain ⟨hs, hid, -⟩ := h (n, seq, fs) (by rw [hmem.1]; simp)
      cases fs with
      | nil => simp at hid
      | cons id rest =>
          have hstore : Storable (id :: rest) (splitPath id.data) :=
            ⟨hs, id, rest, rfl, by simpa using hid, rfl⟩
          exact recordIn_of_contents hstore hc

theorem plainFlash_records {l : List (ℕ × UInt16 × List DbField)}
    (h : ∀ r ∈ l, PlainOk r.2.2) (storageBlocks : ℕ) :
    records (plainEnv storageBlocks) (plainFlash l) =
      (dbBlocks (plainEnv storageBlocks)).filterMap (plainRecord l) := by
  unfold records
  congr 1
  funext n
  exact plainFlash_recordIn h storageBlocks n

end Sunela.Database
