import Mathlib.Data.List.Basic

/-! # C strings and NUL-separated paths -/

namespace Sunela

abbrev Bytes := List UInt8

def asciiBytes (s : String) : Bytes := s.toList.map fun c => UInt8.ofNat c.toNat

/-- A string without the terminator that ends it in memory. -/
structure CString where
  bytes : Bytes
  nulFree : (0 : UInt8) ∉ bytes
  deriving DecidableEq

namespace CString

@[ext] theorem ext {s t : CString} (h : s.bytes = t.bytes) : s = t := by
  cases s
  cases t
  simpa using h

def empty : CString := ⟨[], by simp⟩

def cons (b : UInt8) (h : b ≠ 0) (s : CString) : CString :=
  ⟨b :: s.bytes, by simpa [eq_comm] using ⟨h, s.nulFree⟩⟩

/-- The string that starts a buffer, up to the first NUL. -/
def ofBuffer : Bytes → CString
  | [] => empty
  | b :: bs => if h : b = 0 then empty else cons b h (ofBuffer bs)

theorem ofBuffer_bytes (s : CString) : ofBuffer s.bytes = s := by
  obtain ⟨bs, h⟩ := s
  induction bs with
  | nil => rfl
  | cons b bs ih =>
      simp only [List.mem_cons, not_or] at h
      have hb : b ≠ 0 := fun hb => h.1 hb.symm
      simp only [ofBuffer, hb, dite_false]
      rw [ih h.2]
      rfl

/-- What follows the terminator does not matter. -/
theorem ofBuffer_append (s : CString) (rest : Bytes) : ofBuffer (s.bytes ++ 0 :: rest) = s := by
  obtain ⟨bs, h⟩ := s
  induction bs with
  | nil => rfl
  | cons b bs ih =>
      simp only [List.mem_cons, not_or] at h
      have hb : b ≠ 0 := fun hb => h.1 hb.symm
      simp only [List.cons_append, ofBuffer, hb, dite_false]
      rw [ih h.2]
      rfl

theorem exists_of_mem {buf : Bytes} (h : 0 ∈ buf) :
    ∃ rest, buf = (ofBuffer buf).bytes ++ 0 :: rest := by
  induction buf with
  | nil => simp at h
  | cons b buf ih =>
      by_cases hb : b = 0
      · subst hb
        exact ⟨buf, rfl⟩
      · obtain ⟨rest, hrest⟩ := ih ((List.mem_cons.mp h).resolve_left fun he => hb he.symm)
        refine ⟨rest, ?_⟩
        simp only [ofBuffer, hb, dite_false, cons, List.cons_append]
        rw [← hrest]

end CString

/-! ## Paths -/

abbrev Path := List CString

/-- The names of a path, separated by NUL. -/
def joinPath : Path → Bytes
  | [] => []
  | [s] => s.bytes
  | s :: t :: p => s.bytes ++ 0 :: joinPath (t :: p)

/-- The names between the NULs of a buffer. -/
def splitPath : Bytes → Path
  | [] => [.empty]
  | b :: bs =>
      if h : b = 0 then .empty :: splitPath bs
      else
        match splitPath bs with
        | [] => [.cons b h .empty]
        | s :: p => .cons b h s :: p

theorem splitPath_ne_nil (b : Bytes) : splitPath b ≠ [] := by
  cases b with
  | nil => simp [splitPath]
  | cons b bs =>
      simp only [splitPath]
      split
      · simp
      · split <;> simp

theorem joinPath_cons (s : CString) {p : Path} (hp : p ≠ []) :
    joinPath (s :: p) = s.bytes ++ 0 :: joinPath p := by
  cases p with
  | nil => exact absurd rfl hp
  | cons t p => rfl

theorem joinPath_append {p q : Path} (hp : p ≠ []) (hq : q ≠ []) :
    joinPath (p ++ q) = joinPath p ++ 0 :: joinPath q := by
  induction p with
  | nil => exact absurd rfl hp
  | cons s p ih =>
      rw [List.cons_append, joinPath_cons s (by simp [hq])]
      by_cases hn : p = []
      · subst hn
        rfl
      · rw [ih hn, joinPath_cons s hn, List.append_assoc, List.cons_append]

/-- Reading back the names is exact, so paths and identifiers correspond one to one. -/
theorem joinPath_splitPath (b : Bytes) : joinPath (splitPath b) = b := by
  induction b with
  | nil => rfl
  | cons b bs ih =>
      simp only [splitPath]
      split
      · next h =>
          rw [joinPath_cons _ (splitPath_ne_nil bs), ih, h]
          rfl
      · next h =>
          cases hs : splitPath bs with
          | nil => exact absurd hs (splitPath_ne_nil bs)
          | cons s p =>
              rw [hs] at ih
              cases p with
              | nil => simpa [joinPath, CString.cons] using ih
              | cons t p => simpa [joinPath, CString.cons] using ih

private theorem splitPath_append_nul (s : CString) (b : Bytes) :
    splitPath (s.bytes ++ 0 :: b) = s :: splitPath b := by
  obtain ⟨bs, h⟩ := s
  induction bs with
  | nil => rfl
  | cons c bs ih =>
      simp only [List.mem_cons, not_or] at h
      have hc : c ≠ 0 := fun hc => h.1 hc.symm
      have hi := ih h.2
      simp only [List.cons_append, splitPath, hc, dite_false] at hi ⊢
      rw [hi]
      rfl

private theorem splitPath_bytes (s : CString) : splitPath s.bytes = [s] := by
  obtain ⟨bs, h⟩ := s
  induction bs with
  | nil => rfl
  | cons c bs ih =>
      simp only [List.mem_cons, not_or] at h
      have hc : c ≠ 0 := fun hc => h.1 hc.symm
      have hi := ih h.2
      simp only [splitPath, hc, dite_false] at hi ⊢
      rw [hi]
      rfl

theorem splitPath_joinPath {p : Path} (hp : p ≠ []) : splitPath (joinPath p) = p := by
  induction p with
  | nil => exact absurd rfl hp
  | cons s p ih =>
      by_cases hn : p = []
      · subst hn
        exact splitPath_bytes s
      · rw [joinPath_cons s hn, splitPath_append_nul, ih hn]

/-- The names of a path are parts of the identifier. -/
theorem mem_splitPath_length {b : Bytes} {s : CString} (h : s ∈ splitPath b) :
    s.bytes.length ≤ b.length := by
  induction b generalizing s with
  | nil =>
      obtain rfl : s = .empty := by simpa [splitPath] using h
      exact Nat.le_refl _
  | cons c b ih =>
      simp only [splitPath] at h
      split at h
      · rcases List.mem_cons.mp h with rfl | h
        · exact Nat.zero_le _
        · exact Nat.le_succ_of_le (ih h)
      · cases hs : splitPath b with
        | nil => exact absurd hs (splitPath_ne_nil b)
        | cons t p =>
            rw [hs] at h ih
            rcases List.mem_cons.mp h with rfl | h
            · exact Nat.succ_le_succ (ih (by simp))
            · exact Nat.le_succ_of_le (ih (by simp [h]))

/-! ## The last NUL -/

/-- The index of the last byte `x`, as the library function of that name finds it. -/
def memrchr (x : UInt8) : Bytes → Option ℕ
  | [] => none
  | b :: bs =>
      match memrchr x bs with
      | some i => some (i + 1)
      | none => if b = x then some 0 else none

theorem memrchr_eq_none {x : UInt8} {b : Bytes} (h : x ∉ b) : memrchr x b = none := by
  induction b with
  | nil => rfl
  | cons c b ih =>
      simp only [List.mem_cons, not_or] at h
      have hc : c ≠ x := fun hc => h.1 hc.symm
      simp [memrchr, ih h.2, hc]

theorem memrchr_lt {x : UInt8} {b : Bytes} {i : ℕ} (h : memrchr x b = some i) :
    i < b.length := by
  induction b generalizing i with
  | nil => cases h
  | cons c b ih =>
      simp only [memrchr] at h
      split at h
      · next j hj =>
          have hlt := ih hj
          obtain rfl := Option.some.inj h
          exact Nat.succ_lt_succ hlt
      · split at h
        · obtain rfl := Option.some.inj h
          exact Nat.zero_lt_succ _
        · cases h

theorem memrchr_append_cons {x : UInt8} (a : Bytes) {b : Bytes} (h : x ∉ b) :
    memrchr x (a ++ x :: b) = some a.length := by
  induction a with
  | nil => simp [memrchr, memrchr_eq_none h]
  | cons c a ih => simp [memrchr, ih]

/-- In the identifier of a path the last NUL stands before the last name. -/
theorem memrchr_joinPath {p : Path} (hp : p ≠ []) (s : CString) :
    memrchr 0 (joinPath (p ++ [s])) = some (joinPath p).length := by
  rw [joinPath_append hp (by simp)]
  exact memrchr_append_cons _ s.nulFree

theorem memrchr_bytes (s : CString) : memrchr 0 s.bytes = none := memrchr_eq_none s.nulFree

end Sunela
