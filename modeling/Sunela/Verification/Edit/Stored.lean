import Sunela.Model.FieldEdit
import Sunela.Verification.Base32.RoundTrip
import Sunela.Verification.Generation.Counting
import Sunela.Verification.Move.References

/-! # What is stored for a text

The text for a secret is checked without a limit for the bytes that it decodes to, and then decoded
to a buffer of 20 bytes. -/

namespace Sunela.FieldEdit

open Program Storage Block Entry Fields Database Base32

variable {type : UInt8} {text : CString} {data : Bytes} {env : Env} {db db' : Db} {de : ℕ}

/-! ## The field of an entry -/

/-- The entry has a field with these bytes. -/
def HasField (db : Db) (p : ℕ) (type : UInt8) (data : Bytes) : Prop :=
  ∃ r fld, find p db.entries = some r ∧ dbFieldFind r.1.fields type = some fld ∧ fld.data = data

theorem hasField_of_alike (hfits : data.length < 256) (hfind : (find de db.entries).isSome)
    (h : Alike db'.entries (modify de (withField type data) db.entries)) :
    HasField db' de type data := by
  have hnew : ∀ e ∈ (modify de (withField type data) db.entries).entries,
      e.ptr = de → dbFieldFind e.fields type = some (.ofData type data) := by
    intro e he hptr
    rw [modify_entries] at he
    obtain ⟨d, -, rfl⟩ := List.mem_map.mp he
    by_cases hd : d.is de = true
    · rw [if_pos hd]
      exact dbFieldFind_setField d.fields type data
    · rw [if_neg hd] at hptr
      exact absurd (is_iff.mpr hptr) hd
  have hall := h.symm.fields
    (P := fun q fs => q = de → dbFieldFind fs type = some (.ofData type data)) hnew
  have hsome : (find de db'.entries).isSome := by
    obtain ⟨e, he, hptr⟩ := find_isSome.mp hfind
    have hmem : de ∈ db'.entries.entries.map DbEntry.ptr := by
      rw [h.ptrs.mem_iff, modify_ptrs (g := withField type data) fun _ => rfl, ← hptr]
      exact List.mem_map_of_mem he
    obtain ⟨e', he', hptr'⟩ := List.mem_map.mp hmem
    exact find_isSome.mpr ⟨e', he', hptr'⟩
  obtain ⟨r, hr⟩ := Option.isSome_iff_exists.mp hsome
  obtain ⟨hmem, hptr⟩ := mem_entries_of_find hr
  exact ⟨r, _, hr, hall r.1 hmem hptr, DbField.ofData_data type hfits⟩

/-- Unless the call fails and leaves the entry alone, the field is there. -/
theorem dbChangeField_hasField {torn : Torn} {f g : Flash} {ok : Bool}
    (hfits : data.length < 256)
    (h : Returns (Step torn) (dbChangeField env db de type data) f (ok, db') g) :
    HasField db' de type data ∨ ok = false ∧ db'.entries = db.entries := by
  cases hfind : find de db.entries with
  | none =>
      rw [dbChangeField, changeEntry, hfind] at h
      cases h
  | some r =>
      have hsome : (find de db.entries).isSome := by simp [hfind]
      have hadvanced : wp (anyContract torn) (dbChangeField env db de type data) _ f :=
        wp_dbChangeField_advanced
      rcases wp_returns hadvanced h with ⟨hl, -⟩ | ⟨hok, hs, -⟩
      · exact .inl (hasField_of_alike hfits hsome hl.alike)
      · exact .inr ⟨hok, hs.entries⟩

/-! ## Bytes of a text -/

/-- The call has the right length, and whenever it returns, the bytes are in the field, unless it
has failed and nothing has changed. -/
structure StoresExactly (type : UInt8) (text : CString) (data : Bytes) : Prop where
  call : ∃ object, edited type text = .change object data.length ∧ object.take data.length = data
  stored : ∀ {env db de torn f ok db' g},
    Returns (Step torn) (fieldEdited env db de type text) f (ok, db') g →
      HasField db' de type data ∨ ok = false ∧ db'.entries = db.entries

theorem storesExactly_of_call {object : Bytes} (hfits : data.length < 256)
    (h : edited type text = .change object data.length) (htake : object.take data.length = data) :
    StoresExactly type text data := by
  refine ⟨⟨object, h, htake⟩, fun {env db de _ _ _ _ _} hr => ?_⟩
  have hle : data.length ≤ object.length := by
    have hlen := congrArg List.length htake
    rw [List.length_take] at hlen
    omega
  have hprog : fieldEdited env db de type text = dbChangeField env db de type data := by
    rw [fieldEdited, h, dbChangeField]
    simp only [changeObject, if_pos hle, htake]
  rw [hprog] at hr
  exact dbChangeField_hasField hfits hr

/-! ## Secrets -/

/-- What a text decodes to if there is no limit. -/
def base32Bytes (s : CString) : Bytes := (decodeLoop none s.bytes 0 0 []).2

theorem edited_secret (ht : type ∈ secretTypes) (hne : text ≠ .empty) :
    edited type text = .change (base32Decode maxSecretLen text).2
      (unsigned (base32Decode maxSecretLen text).1) := by
  have hs : type ∉ stringTypes := by
    intro hs
    simp only [secretTypes, List.mem_cons, List.not_mem_nil, or_false] at ht
    rcases ht with rfl | rfl <;> simp [stringTypes] at hs <;> contradiction
  rw [edited, if_neg hne, if_neg hs, if_pos ht]

theorem unsigned_natCast {n : ℕ} (h : n < 2 ^ 32) : unsigned n = n := by
  rw [unsigned]
  omega

/-- The text of a secret that is valid is stored exactly if it decodes to 20 bytes at most. -/
theorem fieldEdited_secret (ht : type ∈ secretTypes) (hv : 0 < validateBase32 text) :
    StoresExactly type text (base32Bytes text) ↔ base32DecodeSize text ≤ maxSecretLen := by
  have hsize : 0 < base32DecodeSize text := by
    by_contra hsize
    rw [validateBase32, if_neg hsize] at hv
    exact absurd hv (Int.lt_irrefl 0)
  have hlen : base32DecodeSize text = (base32Bytes text).length := by
    rcases decodeLoop_value none text.bytes 0 0 [] with hval | hval
    · rw [base32DecodeSize, hval] at hsize
      omega
    · exact hval
  have hne : text ≠ .empty := by
    rintro rfl
    exact absurd hsize (by decide)
  have hcall := edited_secret ht hne
  by_cases hle : (base32Bytes text).length ≤ maxSecretLen
  · refine iff_of_true ?_ (by omega)
    have heq : base32Decode maxSecretLen text =
        (((base32Bytes text).length : ℤ), base32Bytes text) := by
      rw [base32Decode_eq hle]
      exact Prod.ext hlen rfl
    have hlt : (base32Bytes text).length < 256 := Nat.lt_of_le_of_lt hle (by decide)
    rw [heq, unsigned_natCast (by omega)] at hcall
    exact storesExactly_of_call hlt hcall List.take_length
  · refine iff_of_false (fun h => ?_) (by omega)
    -- the length is that of a failed decoding
    obtain ⟨object, hobject, htake⟩ := h.call
    rw [hcall, (base32Decode_full (Nat.lt_of_not_le hle)).1] at hobject
    obtain ⟨rfl, hbig⟩ := Edited.change.inj hobject
    have hfull := congrArg List.length htake
    rw [List.length_take, (base32Decode_full (Nat.lt_of_not_le hle)).2] at hfull
    omega

/-- A text of 32 characters for 20 bytes. -/
def longestSecret : CString := .ofBuffer (List.replicate 32 65)

theorem fieldEdited_secret_longest :
    StoresExactly ftHotpSecret longestSecret (List.replicate 20 0) := by
  have hbytes : base32Bytes longestSecret = List.replicate 20 0 := by decide +kernel
  rw [← hbytes]
  exact (fieldEdited_secret (by decide) (by decide +kernel)).mpr (by decide +kernel)

/-- A text of 40 characters is valid, but its 25 bytes do not fit. -/
def tooLongSecret : CString := .ofBuffer (List.replicate 40 65)

theorem fieldEdited_tooLong : tooLongSecret.bytes.length ≤ maxStringLen ∧
    0 < validateBase32 tooLongSecret ∧ (base32Bytes tooLongSecret).length = 25 ∧
    edited ftHotpSecret tooLongSecret = .change (List.replicate 20 0) (2 ^ 32 - 1) ∧
    ¬ StoresExactly ftHotpSecret tooLongSecret (base32Bytes tooLongSecret) := by
  have hcall : edited ftHotpSecret tooLongSecret =
      .change (List.replicate 20 0) (2 ^ 32 - 1) := by decide +kernel
  have hlength : (base32Bytes tooLongSecret).length = 25 := by decide +kernel
  refine ⟨by decide, by decide +kernel, hlength, hcall, fun h => ?_⟩
  obtain ⟨object, hobject, -⟩ := h.call
  rw [hcall, hlength] at hobject
  exact absurd (Edited.change.inj hobject).2 (by decide)

end Sunela.FieldEdit
