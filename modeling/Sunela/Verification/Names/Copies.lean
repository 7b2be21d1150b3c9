import Sunela.Model.Copies
import Sunela.Verification.Names.Subtrees

/-! # What a rename copies

The copies stay inside their objects, except for the one that puts the new name behind the path
of the directory. -/

namespace Sunela.Database

open Program Storage Block Fields Entry Tsort

variable {env : Env} {db : Db} {torn : Torn} {f : Flash} {α β : Type}

/-! ## The program without its copies -/

theorem forget_bind (p : FwMem α) (g : α → FwMem β) :
    FwMem.forget (p >>= g) = p.forget >>= fun a => (g a).forget :=
  Prog.expand_bind _ p g

@[simp] theorem forget_ret (a : α) : FwMem.forget (.ret a) = .ret a := rfl

@[simp] theorem forget_onStorage (p : Fw α) : (onStorage p).forget = p := by
  induction p with
  | ret a => rfl
  | call c next ih => exact congrArg (Prog.call c) (funext ih)
  | halt => rfl
  | undef => rfl

@[simp] theorem forget_memcpy (dst src : ByteRange) : (memcpy dst src).forget = .ret () := rfl

@[simp] theorem forget_fieldCopies (type : UInt8) (data : Bytes) (size : ℕ) :
    (fieldCopies type data size).forget = .ret () := by
  unfold fieldCopies
  rw [forget_bind]
  split
  · cases memrchr 0 data <;> rfl
  · rfl

theorem dbChangeFieldMem_forget (p : ℕ) (type : UInt8) (data : Bytes) (size : ℕ) :
    (dbChangeFieldMem env db p type data size).forget = dbChangeField env db p type data := by
  unfold dbChangeFieldMem dbChangeField changeEntry
  cases find p db.entries with
  | none => rfl
  | some r =>
      obtain ⟨de, ch⟩ := r
      simp only []
      split
      · simp only [forget_bind, forget_fieldCopies, forget_onStorage, Prog.ret_bind]
        rfl
      · simp only [forget_bind, forget_onStorage]
        congr 1
        funext r
        obtain ⟨new, db⟩ := r
        cases new with
        | none => rfl
        | some new =>
            simp only [forget_bind, forget_fieldCopies, forget_onStorage, Prog.ret_bind]

theorem patchOneMem_forget (p : ℕ) (newPrefix : Bytes) (size k : ℕ) :
    (patchOneMem env db p newPrefix size k).forget = patchOne env db p newPrefix k := by
  unfold patchOneMem patchOne
  cases find p db.entries with
  | none => rfl
  | some r =>
      obtain ⟨de, ch⟩ := r
      simp only []
      cases de.fields with
      | nil => rfl
      | cons id rest =>
          simp only []
          split
          · rfl
          · split
            · exact dbChangeFieldMem_forget p ftId newPrefix size
            · split
              · rfl
              · simp only [forget_bind, forget_memcpy, Prog.ret_bind, dbChangeFieldMem_forget]

theorem patchRecursiveMem_forget (newPrefix : Bytes) (size k : ℕ) (F : Tree) :
    (patchRecursiveMem env newPrefix size k F db).forget = patchRecursive env newPrefix k F db := by
  induction F generalizing db with
  | nil => rfl
  | node e ch nx hc hn =>
      simp only [patchRecursiveMem, patchRecursive, forget_bind, patchOneMem_forget]
      congr 1
      funext r
      obtain ⟨ok, db⟩ := r
      cases ok with
      | false => rfl
      | true =>
          simp only [Bool.not_true, Bool.false_eq_true, if_false, forget_bind, hc]
          congr 1
          funext r
          obtain ⟨ok, db⟩ := r
          cases ok with
          | false => rfl
          | true =>
              simp only [Bool.not_true, Bool.false_eq_true, if_false, hn]

/-- The copies have no other effect. -/
theorem dbRenameMem_forget (p : ℕ) (name : CString) (size : ℕ) :
    (dbRenameMem env db p name size).forget = dbRename env db p name := by
  unfold dbRenameMem dbRename
  cases find p db.entries with
  | none => rfl
  | some r =>
      obtain ⟨de, ch⟩ := r
      simp only []
      cases de.fields with
      | nil => rfl
      | cons id rest =>
          simp only []
          split
          · rfl
          · unfold renamedId
            cases memrchr 0 id.data with
            | none => exact patchRecursiveMem_forget _ _ _ _
            | some z =>
                simp only []
                split
                · simp only [forget_bind, forget_memcpy, Prog.ret_bind, patchRecursiveMem_forget]
                · rfl

/-! ## Ranges -/

/-- Every copy stays inside its objects. -/
def insideContract (torn : Torn) : Contract MemCmd MemReply Flash where
  step := MemStep (Step torn)
  call _ c :=
    match c with
    | .storage _ => True
    | .memcpy c => c.Inside
  halt _ _ := True
  undef _ := True

theorem wp_onStorage (p : Fw α) :
    wp (insideContract torn) (onStorage p) (fun _ _ => True) f := by
  induction p generalizing f with
  | ret a => trivial
  | call c next ih => exact ⟨trivial, fun r g _ => ih r⟩
  | halt => trivial
  | undef => trivial

theorem wp_memcpy {dst src : ByteRange} {Q : Unit → Flash → Prop} (hd : dst.Inside)
    (hs : src.Inside) (hQ : Q () f) : wp (insideContract torn) (memcpy dst src) Q f := by
  refine ⟨⟨hd, hs⟩, fun r g hstep => ?_⟩
  cases hstep
  exact hQ

/-- The name is what follows the last NUL, and has a NUL of its own. -/
theorem wp_fieldCopies {type : UInt8} {data : Bytes} {size : ℕ} (h : data.length ≤ size) :
    wp (insideContract torn) (fieldCopies type data size) (fun _ _ => True) f := by
  unfold fieldCopies
  rw [wp_bind]
  apply wp_memcpy
  · exact Nat.le_of_eq (Nat.zero_add _)
  · rwa [ByteRange.Inside, Nat.zero_add]
  · split
    · cases hz : memrchr 0 data with
      | none =>
          apply wp_memcpy
          · simp [ByteRange.Inside]
          · rwa [ByteRange.Inside, Nat.zero_add]
          · trivial
      | some z =>
          have hlt := memrchr_lt hz
          apply wp_memcpy
          · simp [ByteRange.Inside]
          · simp only [ByteRange.Inside]
            omega
          · trivial
    · trivial

theorem wp_dbChangeFieldMem {p : ℕ} {type : UInt8} {data : Bytes} {size : ℕ}
    (h : data.length ≤ size) :
    wp (insideContract torn) (dbChangeFieldMem env db p type data size) (fun _ _ => True) f := by
  unfold dbChangeFieldMem
  cases find p db.entries with
  | none => trivial
  | some r =>
      obtain ⟨de, ch⟩ := r
      simp only []
      split
      · simp only [wp_bind]
        refine wp_mono (wp_fieldCopies h) fun _ _ _ => ?_
        exact wp_mono (wp_onStorage _) fun _ _ _ => trivial
      · rw [wp_bind]
        refine wp_mono (wp_onStorage _) fun r _ _ => ?_
        obtain ⟨new, db'⟩ := r
        cases new with
        | none => trivial
        | some new =>
            simp only [wp_bind]
            refine wp_mono (wp_fieldCopies h) fun _ _ _ => ?_
            refine wp_mono (wp_onStorage _) fun _ _ _ => ?_
            exact wp_onStorage _

/-- `patch_one` copies inside its objects, whatever the identifier is. -/
theorem wp_patchOneMem {p : ℕ} {newPrefix : Bytes} {size k : ℕ} (h : newPrefix.length ≤ size) :
    wp (insideContract torn) (patchOneMem env db p newPrefix size k) (fun _ _ => True) f := by
  unfold patchOneMem
  cases find p db.entries with
  | none => trivial
  | some r =>
      obtain ⟨de, ch⟩ := r
      simp only []
      cases de.fields with
      | nil => trivial
      | cons id rest =>
          simp only []
          split
          · trivial
          · next hid =>
              have hle : k ≤ id.data.length := Nat.le_of_not_lt fun hlt => hid (.inr hlt)
              split
              · exact wp_dbChangeFieldMem h
              · split
                · trivial
                · simp only [wp_bind]
                  apply wp_memcpy
                  · simp only [ByteRange.Inside]
                    omega
                  · rwa [ByteRange.Inside, Nat.zero_add]
                  · apply wp_memcpy
                    · simp only [ByteRange.Inside]
                      omega
                    · simp only [ByteRange.Inside]
                      omega
                    · apply wp_dbChangeFieldMem
                      rw [List.length_append, List.length_drop]
                      omega

theorem wp_patchRecursiveMem {newPrefix : Bytes} {size k : ℕ} (h : newPrefix.length ≤ size)
    (F : Tree) :
    wp (insideContract torn) (patchRecursiveMem env newPrefix size k F db) (fun _ _ => True) f := by
  induction F generalizing db f with
  | nil => trivial
  | node e ch nx hc hn =>
      rw [patchRecursiveMem, wp_bind]
      refine wp_mono (wp_patchOneMem h) fun r _ _ => ?_
      obtain ⟨ok, db₁⟩ := r
      cases ok with
      | false => trivial
      | true =>
          simp only [Bool.not_true, Bool.false_eq_true, if_false, wp_bind]
          refine wp_mono hc fun r _ _ => ?_
          obtain ⟨ok, db₂⟩ := r
          cases ok with
          | false => trivial
          | true => exact hn

/-! ## `db_rename` -/

section Renaming

variable {c₀ : List DbEntry} {de : DbEntry} {ch : Tree} {name : CString} {size : ℕ}

/-- Every copy of a rename stays inside its objects if the entry is at the top level, and only
then. Below it an empty name or path stops the rename before the copy. -/
theorem dbRenameMem_inside (h : PathsMatch db.entries)
    (hfind : find de.ptr db.entries = some (de, ch)) (hc : c₀ ++ [de] ∈ db.entries.chains)
    (hsize : name.bytes.length < size) :
    (∀ c next g, Reaches (MemStep (Step torn)) (dbRenameMem env db de.ptr name size) f
      (.call (.memcpy c) next) g → c.Inside) ↔
      c₀ = [] ∨ joinPath (names c₀) = [] ∨ de.name.bytes = [] := by
  obtain ⟨id, rest, hf, htype, hdata⟩ := h c₀ de hc
  have hsplit : names (c₀ ++ [de]) = names c₀ ++ [de.name] := by simp
  rw [hsplit] at hdata
  have hinside : wp (insideContract torn) (dbRenameMem env db de.ptr name size)
      (fun _ _ => True) f → ∀ c next g, Reaches (MemStep (Step torn))
        (dbRenameMem env db de.ptr name size) f (.call (.memcpy c) next) g → c.Inside :=
    fun hw c next g hr => (wp_reaches hw hr).1
  by_cases hne : c₀ = []
  · subst hne
    refine iff_of_true (hinside ?_) (.inl rfl)
    unfold dbRenameMem
    simp only [hfind, hf, htype, ne_eq, not_true_eq_false, if_false]
    have hnone : memrchr 0 id.data = none := by
      rw [hdata]
      simp [names, joinPath, memrchr_bytes]
    rw [hnone]
    exact wp_patchRecursiveMem (Nat.le_of_lt hsize) _
  · have hnames : names c₀ ≠ [] := by simpa using hne
    have hz : memrchr 0 id.data = some (joinPath (names c₀)).length := by
      rw [hdata, memrchr_joinPath hnames]
    have hlength : id.data.length = (joinPath (names c₀)).length + 1 + de.name.bytes.length := by
      rw [hdata, joinPath_append hnames (by simp), List.length_append, List.length_cons, joinPath]
      omega
    have hgood : (1 < (joinPath (names c₀)).length + 1 ∧
        (joinPath (names c₀)).length + 1 < id.data.length) ↔
          ¬ (joinPath (names c₀) = [] ∨ de.name.bytes = []) := by
      rw [not_or, ← List.length_eq_zero_iff, ← List.length_eq_zero_iff, hlength]
      omega
    by_cases hstop : joinPath (names c₀) = [] ∨ de.name.bytes = []
    · refine iff_of_true (hinside ?_) (.inr hstop)
      unfold dbRenameMem
      simp only [hfind, hf, htype, ne_eq, not_true_eq_false, if_false, hz]
      rw [if_neg fun hg => hgood.mp hg hstop]
      trivial
    · refine iff_of_false (fun hall => ?_) (not_or.mpr ⟨hne, hstop⟩)
      -- the second copy is as long as the whole buffer
      obtain ⟨next, hreach⟩ : ∃ next, Reaches (MemStep (Step torn))
          (dbRenameMem env db de.ptr name size) f (.call (.memcpy
            ⟨⟨(joinPath (names c₀)).length + 1 + name.bytes.length, (joinPath (names c₀)).length + 1,
              (joinPath (names c₀)).length + 1 + name.bytes.length⟩,
            ⟨size, 0, (joinPath (names c₀)).length + 1 + name.bytes.length⟩⟩) next) f := by
        unfold dbRenameMem
        simp only [hfind, hf, htype, ne_eq, not_true_eq_false, if_false, hz]
        rw [if_pos (hgood.mpr hstop)]
        exact ⟨_, .call (.memcpy f _) (.refl _ _)⟩
      have hover := (hall _ _ _ hreach).dst
      simp only [ByteRange.Inside] at hover
      omega

end Renaming

/-! ## A directory -/

/-- Renaming `d` to `e`, which is in a buffer of 17 bytes. -/
theorem dbRenameMem_inside_directory : account 100 none ∈ directoryDb.entries.tops ∧
    ∀ c next g, Reaches (MemStep (Step fun _ _ _ => True))
      (dbRenameMem (plainEnv 256) directoryDb 100 (.ofBuffer [101]) 17) (plainFlash [])
        (.call (.memcpy c) next) g → c.Inside := by
  have hc : ([] : List DbEntry) ++ [account 100 none] ∈ directoryDb.entries.chains := by decide
  have hfind : find (account 100 none).ptr directoryDb.entries = some (account 100 none, _) := rfl
  have hlength : (CString.ofBuffer [101]).bytes.length < 17 := by decide
  exact ⟨by decide,
    (dbRenameMem_inside (pathsMatch_of_last (by decide)) hfind hc hlength).mpr (.inl rfl)⟩

/-- Renaming `a` in `d` to `b`: three bytes are copied to the last byte of the buffer. -/
theorem dbRenameMem_inside_nested : ∃ env db de ch c₀, ∃ name : CString, ∃ size f c next g,
    PathsMatch db.entries ∧ find de.ptr db.entries = some (de, ch) ∧
    c₀ ++ [de] ∈ db.entries.chains ∧ name.bytes ≠ [] ∧ name.bytes.length < size ∧
    Reaches (MemStep Works) (dbRenameMem env db de.ptr name size) f (.call (.memcpy c) next) g ∧
    ¬ c.Inside := by
  have hc : [account 100 none] ++ [{ account 97 none with
      fields := [DbField.ofData ftId [100, 0, 97]] }] ∈ directoryDb.entries.chains := by decide
  have hover : ¬ Copy.Inside ⟨⟨3, 2, 3⟩, ⟨17, 0, 3⟩⟩ := fun h => absurd h.dst (by decide)
  exact ⟨plainEnv 256, directoryDb,
    { account 97 none with fields := [.ofData ftId [100, 0, 97]] }, .nil, [account 100 none],
    .ofBuffer [98], 17, plainFlash [], _, _, _, pathsMatch_of_last (by decide), rfl, hc,
    by decide, by decide, .call (.memcpy _ _) (.refl _ _), hover⟩

end Sunela.Database
