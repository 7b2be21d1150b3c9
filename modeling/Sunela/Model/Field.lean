import Mathlib.Data.List.Basic
import Sunela.Lib.CString

/-! # Fields of database entries

An entry carries a list of fields, kept in order of their types. On storage the list is a
sequence of type, length and data. -/

namespace Sunela.Fields

/-! ## Field types -/

def ftEnd : UInt8 := 0

def ftId : UInt8 := 1

def ftPrev : UInt8 := 2

def ftUser : UInt8 := 3

def ftEmail : UInt8 := 4

def ftPw : UInt8 := 5

def ftHotpSecret : UInt8 := 6

def ftHotpCounter : UInt8 := 7

def ftTotpSecret : UInt8 := 8

def ftComment : UInt8 := 9

def ftPw2 : UInt8 := 10

def ftDir : UInt8 := 11

/-- `struct db_field`. The length is a byte. -/
structure DbField where
  type : UInt8
  data : Bytes
  fits : data.length < 256
  deriving DecidableEq

@[ext] theorem DbField.ext {f g : DbField} (ht : f.type = g.type) (hd : f.data = g.data) :
    f = g := by
  cases f
  cases g
  simp_all

/-- A field whose length is that of the data, stored in a byte. -/
def DbField.ofData (type : UInt8) (data : Bytes) : DbField :=
  ⟨type, data.take (data.length % 256), by
    rw [List.length_take]
    exact Nat.lt_of_le_of_lt (Nat.min_le_left _ _) (Nat.mod_lt _ (by omega))⟩

@[simp] theorem DbField.ofData_type (type : UInt8) (data : Bytes) :
    (DbField.ofData type data).type = type := rfl

theorem DbField.ofData_data (type : UInt8) {data : Bytes} (h : data.length < 256) :
    (DbField.ofData type data).data = data := by
  simp [DbField.ofData, Nat.mod_eq_of_lt h]

@[simp] theorem DbField.ofData_self (f : DbField) : DbField.ofData f.type f.data = f := by
  ext1
  · rfl
  · exact DbField.ofData_data f.type f.fits

/-- `add_field`: the new field goes before the first one of a higher type. -/
def addField (fields : List DbField) (type : UInt8) (data : Bytes) : List DbField :=
  match fields with
  | [] => [.ofData type data]
  | f :: rest =>
      if type < f.type then .ofData type data :: f :: rest
      else f :: addField rest type data

/-- The change `db_change_field` makes to the list. -/
def setField (fields : List DbField) (type : UInt8) (data : Bytes) : List DbField :=
  match fields with
  | [] => [.ofData type data]
  | f :: rest =>
      if type ≤ f.type then
        if f.type = type then .ofData type data :: rest
        else .ofData type data :: f :: rest
      else f :: setField rest type data

/-- `db_field_find` -/
def dbFieldFind (fields : List DbField) (type : UInt8) : Option DbField :=
  fields.find? fun f => f.type = type

/-! ## Encoding -/

def encodeField (f : DbField) : Bytes := f.type :: UInt8.ofNat f.data.length :: f.data

/-- The loop of `write_entry`: nothing if a field does not fit what is left of the buffer. -/
def encodeFields (room : ℕ) : List DbField → Option Bytes
  | [] => some []
  | f :: rest =>
      if room < f.data.length + 2 then none
      else (encodeFields (room - (f.data.length + 2)) rest).map (encodeField f ++ ·)

/-- `tlv_item`: the next field and what follows it. -/
def tlvItem : Bytes → Option (DbField × Bytes)
  | type :: len :: rest =>
      if type = ftEnd then none
      else if rest.length < len.toNat then none
      else some (.ofData type (rest.take len.toNat), rest.drop len.toNat)
  | _ => none

/-- All fields up to the first that is incomplete or ends the list. -/
def tlvItems (fuel : ℕ) (p : Bytes) : List DbField :=
  match fuel with
  | 0 => []
  | fuel + 1 =>
      match tlvItem p with
      | none => []
      | some (f, rest) => f :: tlvItems fuel rest

/-- The fields of a payload in the order in which `process_payload` leaves them. -/
def sortFields (fields : List DbField) : List DbField :=
  fields.foldl (fun fs f => addField fs f.type f.data) []

/-! ## Order -/

/-- The fields are in order of their types. -/
def Sorted (fields : List DbField) : Prop := fields.Pairwise fun f g => f.type ≤ g.type

theorem ftId_le {type : UInt8} (h : type ≠ ftEnd) : ftId ≤ type := by
  rw [UInt8.le_iff_toNat_le]
  have hne : type.toNat ≠ 0 := fun hz => h (UInt8.toNat_inj.mp hz)
  exact Nat.one_le_iff_ne_zero.mpr hne

theorem Sorted.nil : Sorted [] := List.Pairwise.nil

theorem sorted_cons {f : DbField} {fs : List DbField} :
    Sorted (f :: fs) ↔ (∀ g ∈ fs, f.type ≤ g.type) ∧ Sorted fs := List.pairwise_cons

theorem mem_addField {fs : List DbField} {type : UInt8} {data : Bytes} {g : DbField} :
    g ∈ addField fs type data ↔ g = .ofData type data ∨ g ∈ fs := by
  induction fs with
  | nil => simp [addField]
  | cons f fs ih =>
      simp only [addField]
      split
      · simp
      · simp only [List.mem_cons, ih]
        tauto

theorem addField_sorted {fs : List DbField} (h : Sorted fs) (type : UInt8) (data : Bytes) :
    Sorted (addField fs type data) := by
  induction fs with
  | nil => simp [addField, Sorted]
  | cons f fs ih =>
      obtain ⟨hf, hs⟩ := sorted_cons.mp h
      simp only [addField]
      split
      · next hlt =>
          refine sorted_cons.mpr ⟨?_, h⟩
          intro g hg
          rcases List.mem_cons.mp hg with rfl | hg
          · exact UInt8.le_of_lt hlt
          · exact UInt8.le_trans (UInt8.le_of_lt hlt) (hf g hg)
      · next hnlt =>
          refine sorted_cons.mpr ⟨?_, ih hs⟩
          intro g hg
          rcases mem_addField.mp hg with rfl | hg
          · exact UInt8.not_lt.mp hnlt
          · exact hf g hg

theorem mem_setField {fs : List DbField} {type : UInt8} {data : Bytes} {g : DbField}
    (h : g ∈ setField fs type data) : g = .ofData type data ∨ g ∈ fs := by
  induction fs with
  | nil => simpa [setField] using h
  | cons f fs ih =>
      simp only [setField] at h
      split_ifs at h
      · rcases List.mem_cons.mp h with h | h
        · exact .inl h
        · exact .inr (List.mem_cons_of_mem _ h)
      · rcases List.mem_cons.mp h with h | h
        · exact .inl h
        · exact .inr h
      · rcases List.mem_cons.mp h with rfl | h
        · exact .inr (by simp)
        · exact (ih h).imp_right (List.mem_cons_of_mem _)

theorem setField_sorted {fs : List DbField} (h : Sorted fs) (type : UInt8) (data : Bytes) :
    Sorted (setField fs type data) := by
  induction fs with
  | nil => simp [setField, Sorted]
  | cons f fs ih =>
      obtain ⟨hf, hs⟩ := sorted_cons.mp h
      simp only [setField]
      split_ifs with hle heq
      · exact sorted_cons.mpr ⟨fun g hg => heq ▸ hf g hg, hs⟩
      · refine sorted_cons.mpr ⟨?_, h⟩
        intro g hg
        rcases List.mem_cons.mp hg with rfl | hg
        · exact hle
        · exact UInt8.le_trans hle (hf g hg)
      · refine sorted_cons.mpr ⟨?_, ih hs⟩
        intro g hg
        rcases mem_setField hg with rfl | hg
        · exact UInt8.le_of_lt (UInt8.not_le.mp hle)
        · exact hf g hg

theorem addField_eq_append {fs : List DbField} {f : DbField}
    (h : ∀ g ∈ fs, g.type ≤ f.type) : addField fs f.type f.data = fs ++ [f] := by
  induction fs with
  | nil => simp [addField]
  | cons g fs ih =>
      have hg : ¬ f.type < g.type := UInt8.not_lt.mpr (h g (by simp))
      simp only [addField, hg, if_false, List.cons_append]
      rw [ih fun x hx => h x (by simp [hx])]

private theorem foldl_addField {acc fs : List DbField} (h : Sorted (acc ++ fs)) :
    fs.foldl (fun fs f => addField fs f.type f.data) acc = acc ++ fs := by
  induction fs generalizing acc with
  | nil => simp
  | cons f fs ih =>
      have hf : ∀ g ∈ acc, g.type ≤ f.type := fun g hg =>
        (List.pairwise_append.mp h).2.2 g hg f (by simp)
      rw [List.foldl_cons, addField_eq_append hf, ih (by simpa using h)]
      simp

/-- A list that is in order stays as it is. -/
theorem sortFields_of_sorted {fs : List DbField} (h : Sorted fs) : sortFields fs = fs := by
  have hs : Sorted ([] ++ fs) := h
  simpa [sortFields] using foldl_addField hs

theorem addField_perm (fs : List DbField) (f : DbField) :
    (addField fs f.type f.data).Perm (f :: fs) := by
  induction fs with
  | nil => simp [addField]
  | cons g fs ih =>
      simp only [addField]
      split
      · simp
      · exact (ih.cons g).trans (List.Perm.swap f g fs)

private theorem foldl_addField_perm (acc fs : List DbField) :
    (fs.foldl (fun fs f => addField fs f.type f.data) acc).Perm (acc ++ fs) := by
  induction fs generalizing acc with
  | nil => simp
  | cons f fs ih =>
      refine (ih _).trans ?_
      refine ((addField_perm acc f).append_right fs).trans ?_
      exact List.perm_middle.symm

/-- The same fields are found after sorting. -/
theorem sortFields_perm (fs : List DbField) : (sortFields fs).Perm fs := by
  simpa [sortFields] using foldl_addField_perm [] fs

theorem sortFields_sorted (fs : List DbField) : Sorted (sortFields fs) := by
  have h : ∀ acc, Sorted acc → Sorted (fs.foldl (fun fs f => addField fs f.type f.data) acc) := by
    induction fs with
    | nil => exact fun acc h => h
    | cons f fs ih => exact fun acc h => ih _ (addField_sorted h _ _)
  exact h [] Sorted.nil

private theorem foldl_addField_head {f : DbField} {acc fs : List DbField}
    (h : ∀ g ∈ fs, f.type ≤ g.type) :
    ∃ rest, fs.foldl (fun fs f => addField fs f.type f.data) (f :: acc) = f :: rest := by
  induction fs generalizing acc with
  | nil => exact ⟨acc, rfl⟩
  | cons g fs ih =>
      have hg : ¬ g.type < f.type := UInt8.not_lt.mpr (h g (by simp))
      simp only [List.foldl_cons, addField, hg, if_false]
      exact ih fun x hx => h x (by simp [hx])

/-- A field of the lowest type that comes first stays first. -/
theorem sortFields_head {f : DbField} {fs : List DbField} (h : ∀ g ∈ fs, f.type ≤ g.type) :
    ∃ rest, sortFields (f :: fs) = f :: rest := by
  simpa [sortFields, addField] using @foldl_addField_head f [] fs h

/-! ## Round trip -/

theorem encodeFields_eq {room : ℕ} {fs : List DbField} {b : Bytes}
    (h : encodeFields room fs = some b) : b = fs.flatMap encodeField ∧ b.length ≤ room := by
  induction fs generalizing room b with
  | nil =>
      obtain rfl : [] = b := by simpa [encodeFields] using h
      simp
  | cons f fs ih =>
      simp only [encodeFields] at h
      split at h
      · simp at h
      · next hroom =>
          obtain ⟨b', hb', rfl⟩ := Option.map_eq_some_iff.mp h
          obtain ⟨rfl, hlen⟩ := ih hb'
          refine ⟨by simp, ?_⟩
          simp only [List.length_append, encodeField, List.length_cons]
          omega

theorem tlvItem_encodeField {f : DbField} (h : f.type ≠ ftEnd) (rest : Bytes) :
    tlvItem (encodeField f ++ rest) = some (f, rest) := by
  have hl : (UInt8.ofNat f.data.length).toNat = f.data.length := by
    simpa using Nat.mod_eq_of_lt f.fits
  simp only [encodeField, List.cons_append, tlvItem, h, if_false, hl, List.length_append]
  rw [if_neg (by omega)]
  simp

theorem tlvItem_replicate (k : ℕ) : tlvItem (List.replicate k 0) = none := by
  match k with
  | 0 => rfl
  | 1 => rfl
  | k + 2 => simp [List.replicate_succ, tlvItem, ftEnd]

/-- The fields are read back from an encoded list that is padded with zeros. -/
theorem tlvItems_flatMap {fs : List DbField} (h : ∀ f ∈ fs, f.type ≠ ftEnd) {fuel : ℕ}
    (hfuel : fs.length < fuel) (k : ℕ) :
    tlvItems fuel (fs.flatMap encodeField ++ List.replicate k 0) = fs := by
  induction fs generalizing fuel with
  | nil =>
      cases fuel with
      | zero => rfl
      | succ fuel => simp [tlvItems, tlvItem_replicate]
  | cons f fs ih =>
      cases fuel with
      | zero => simp at hfuel
      | succ fuel =>
          rw [List.flatMap_cons, List.append_assoc]
          simp only [tlvItems, tlvItem_encodeField (h f (by simp))]
          rw [ih (fun g hg => h g (by simp [hg])) (by simpa using hfuel)]

theorem tlvItem_type {p : Bytes} {f : DbField} {rest : Bytes} (h : tlvItem p = some (f, rest)) :
    f.type ≠ ftEnd := by
  unfold tlvItem at h
  split at h
  · next type len bytes =>
      split_ifs at h with ht hl
      obtain ⟨rfl, -⟩ := Prod.mk.inj (Option.some.inj h)
      exact ht
  · simp at h

theorem tlvItems_type {fuel : ℕ} {p : Bytes} : ∀ f ∈ tlvItems fuel p, f.type ≠ ftEnd := by
  induction fuel generalizing p with
  | zero => simp [tlvItems]
  | succ fuel ih =>
      simp only [tlvItems]
      cases h : tlvItem p with
      | none => simp
      | some r =>
          intro f hf
          rcases List.mem_cons.mp hf with rfl | hf
          · exact tlvItem_type h
          · exact ih f hf

end Sunela.Fields
