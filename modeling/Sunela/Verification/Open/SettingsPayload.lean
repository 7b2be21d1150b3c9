import Mathlib.Data.List.GetD
import Sunela.Model.Settings

/-! # Reading only what an item announces

The value of a flags item is used without a look at its length. Where zeros follow the payload,
the parser does what the model does that sees the payload as a list. -/

namespace Sunela.Database

open Serial

variable {mem : ℕ → UInt8} {size p q rounds : ℕ} {flags : UInt8} {s : Settings} {seq : UInt16}

/-- The byte is in the payload and, if it is used as part of a value, among those that the length
of the item announces. -/
def Access.Proper (size : ℕ) : Access → Prop
  | .header a => a < size
  | .value v len a => v ≤ a ∧ a < v + len ∧ a < size

/-- The parser gets from one address to another by complete items with flags. -/
inductive Visits (mem : ℕ → UInt8) (size : ℕ) : ℕ → ℕ → Prop where
  | here (p : ℕ) : Visits mem size p p
  | item {p q : ℕ} (flags : mem p = stFlags) (complete : p + 2 + (mem (p + 1)).toNat ≤ size)
      (rest : Visits mem size (p + 2 + (mem (p + 1)).toNat) q) : Visits mem size p q

/-- There are flags without data at the address. -/
def EmptyFlags (mem : ℕ → UInt8) (size p : ℕ) : Prop :=
  p + 2 ≤ size ∧ mem p = stFlags ∧ mem (p + 1) = 0

/-- No complete item with flags starts at the address. -/
theorem visits_stop (h : mem p = stFlags → size < p + 2 + (mem (p + 1)).toNat) :
    ∀ q, Visits mem size p q → ¬ EmptyFlags mem size q := by
  intro q hv hempty
  cases hv with
  | here =>
      obtain ⟨hsize, hflags, hlen⟩ := hempty
      have hlt := h hflags
      rw [hlen, UInt8.toNat_zero] at hlt
      omega
  | item hflags hcomplete rest =>
      have hlt := h hflags
      omega

theorem visits_item (hflags : mem p = stFlags) (hle : p + 2 + (mem (p + 1)).toNat ≤ size) :
    (∀ q, Visits mem size p q → ¬ EmptyFlags mem size q) ↔ mem (p + 1) ≠ 0 ∧
      ∀ q, Visits mem size (p + 2 + (mem (p + 1)).toNat) q → ¬ EmptyFlags mem size q := by
  constructor
  · intro h
    exact ⟨fun hzero => h p (.here p) ⟨by omega, hflags, hzero⟩,
      fun q hv => h q (.item hflags hle hv)⟩
  · rintro ⟨hne, h⟩ q hv hempty
    cases hv with
    | here => exact hne hempty.2.2
    | item hflags' hcomplete rest => exact h q rest hempty

/-- The loop ends, and stays with what is announced unless it comes to flags without data. -/
theorem parseSettingsAt_proper (hle : p ≤ size) (hr : size - p < rounds) :
    ∃ r, parseSettingsAt mem size p flags rounds = some r ∧
      ((∀ a ∈ r.2, a.Proper size) ↔ ∀ q, Visits mem size p q → ¬ EmptyFlags mem size q) := by
  induction rounds generalizing p flags with
  | zero => omega
  | succ rounds ih =>
      rw [parseSettingsAt]
      by_cases hend : p ≥ size
      · rw [if_pos hend]
        exact ⟨_, rfl, iff_of_true (by simp) (visits_stop fun _ => by omega)⟩
      have hheader : (Access.header p).Proper size := Nat.lt_of_not_le hend
      rw [if_neg hend]
      by_cases hzero : mem p = 0
      · have hstop : mem p ≠ stFlags := by
          rw [hzero]
          decide
        rw [if_pos hzero]
        exact ⟨_, rfl, iff_of_true (by simpa using hheader) (visits_stop fun h => absurd h hstop)⟩
      rw [if_neg hzero]
      by_cases hshort : p + 2 > size
      · rw [if_pos hshort]
        exact ⟨_, rfl, iff_of_true (by simpa using hheader) (visits_stop fun _ => by omega)⟩
      have hlength : (Access.header (p + 1)).Proper size := by
        simp only [Access.Proper]
        omega
      rw [if_neg hshort]
      dsimp only
      by_cases hcut : p + 2 + (mem (p + 1)).toNat > size
      · rw [if_pos hcut]
        exact ⟨_, rfl, iff_of_true (by simp [hheader, hlength]) (visits_stop fun _ => hcut)⟩
      rw [if_neg hcut]
      by_cases htype : mem p = stFlags
      · obtain ⟨r, hrest, hproper⟩ := @ih (p + 2 + (mem (p + 1)).toNat) (mem (p + 2)) (by omega)
          (by omega)
        have hvalue : (Access.value (p + 2) (mem (p + 1)).toNat (p + 2)).Proper size ↔
            mem (p + 1) ≠ 0 := by
          have hpos : 0 < (mem (p + 1)).toNat ↔ mem (p + 1) ≠ 0 := by
            rw [Nat.pos_iff_ne_zero, ne_eq, ← UInt8.toNat_zero, UInt8.toNat_inj]
          rw [← hpos]
          simp only [Access.Proper]
          omega
        rw [if_pos htype, hrest, visits_item htype (by omega), ← hproper, ← hvalue]
        exact ⟨_, rfl, by simp [hheader, hlength]⟩
      · rw [if_neg htype]
        exact ⟨_, rfl, iff_of_true (by simp [hheader, hlength])
          (visits_stop fun h => absurd h htype)⟩

/-! ## The payload as a list -/

theorem parseSettingsAt_eq {payload : Bytes} {fuel : ℕ} (hle : p ≤ payload.length)
    (hr : payload.length - p < rounds) (hf : payload.length - p ≤ fuel) :
    (parseSettingsAt (payload.getD · 0) payload.length p flags rounds).map Prod.fst =
      some (parseSettings fuel (payload.drop p) flags) := by
  induction rounds generalizing p flags fuel with
  | zero => omega
  | succ rounds ih =>
      have hlen := List.length_drop (l := payload) (i := p)
      have hget : ∀ i, (payload.drop p).getD i 0 = payload.getD (p + i) 0 := fun i => by
        rw [List.getD_eq_getElem?_getD, List.getD_eq_getElem?_getD, List.getElem?_drop]
      rw [parseSettingsAt]
      cases hd : payload.drop p with
      | nil =>
          rw [hd, List.length_nil] at hlen
          rw [if_pos (by omega)]
          cases fuel <;> rfl
      | cons type rest =>
          rw [hd] at hlen hget
          rw [List.length_cons] at hlen
          have htype : payload.getD p 0 = type := (hget 0).symm
          obtain ⟨fuel, rfl⟩ : ∃ k, fuel = k + 1 := ⟨fuel - 1, by omega⟩
          rw [if_neg (by omega), htype]
          unfold parseSettings
          dsimp only
          by_cases hzero : type = 0
          · rw [if_pos hzero, if_pos hzero]
            rfl
          rw [if_neg hzero, if_neg hzero]
          cases rest with
          | nil =>
              rw [List.length_nil] at hlen
              rw [if_pos (by omega)]
              rfl
          | cons len v =>
              rw [List.length_cons] at hlen
              have hl : payload.getD (p + 1) 0 = len := (hget 1).symm
              rw [if_neg (by omega)]
              simp only [hl]
              by_cases hcut : v.length < len.toNat
              · rw [if_pos (by omega), if_pos (.inl hcut)]
                rfl
              rw [if_neg (by omega)]
              by_cases hflags : type = stFlags
              · have hrest : payload.drop (p + 2 + len.toNat) = v.drop len.toNat := by
                  rw [← List.drop_drop, ← List.drop_drop, hd]
                  rfl
                have hvalue : payload.getD (p + 2) 0 = v.headD 0 := by
                  rw [← hget 2]
                  cases v <;> rfl
                have hnext := @ih (p + 2 + len.toNat) (v.headD 0) fuel (by omega) (by omega)
                  (by omega)
                rw [if_pos hflags, if_neg (by simp [hcut, hflags]), hvalue, Option.map_map,
                  ← hrest, ← hnext]
                rfl
              · rw [if_neg hflags, if_pos (.inr hflags)]
                rfl

/-- The parser does what the model of the list does if zeros follow the payload. -/
theorem settingsProcessAt_eq (s : Settings) (seq : UInt16) (payload : Bytes) :
    (settingsProcessAt s seq (payload.getD · 0) payload.length).map (fun r => (r.1, r.2.1)) =
      some (match settingsProcess s seq payload with
        | none => (false, s)
        | some s' => (true, s')) := by
  unfold settingsProcessAt settingsProcess
  by_cases hstale : s.haveSettings = true ∧ Behind 0x8000 seq.toNat s.settingsSeq.toNat
  · rw [if_pos hstale, if_pos hstale]
    rfl
  · have hparse := @parseSettingsAt_eq 0 (payload.length + 1) 0 payload payload.length
      (Nat.zero_le _) (by omega) (by omega)
    rw [List.drop_zero] at hparse
    obtain ⟨r, hr, hfst⟩ := Option.map_eq_some_iff.mp hparse
    rw [if_neg hstale, if_neg hstale, hr, Option.map_some, Option.map_some, ← hfst]
    cases r.1 <;> rfl

/-! ## Any payload -/

/-- What a caller may rely on for a payload in memory: a result, reads of announced bytes of the
payload only, and no change if the payload is refused. -/
def SafelyProcessed (s : Settings) (seq : UInt16) (mem : ℕ → UInt8) (size : ℕ) : Prop :=
  ∃ result s' accesses, settingsProcessAt s seq mem size = some (result, s', accesses) ∧
    (∀ a ∈ accesses, a.Proper size) ∧ (result = false → s' = s)

/-- Settings are processed safely exactly if they are out of date, or the parser comes to no flags
without data. -/
theorem settingsProcessAt_safe (s : Settings) (seq : UInt16) (mem : ℕ → UInt8) (size : ℕ) :
    SafelyProcessed s seq mem size ↔
      (s.haveSettings = true ∧ Behind 0x8000 seq.toNat s.settingsSeq.toNat) ∨
        ∀ p, Visits mem size 0 p → ¬ EmptyFlags mem size p := by
  unfold SafelyProcessed settingsProcessAt
  by_cases hstale : s.haveSettings = true ∧ Behind 0x8000 seq.toNat s.settingsSeq.toNat
  · rw [if_pos hstale]
    exact iff_of_true ⟨true, s, [], rfl, by simp, nofun⟩ (.inl hstale)
  · obtain ⟨⟨flags, accesses⟩, hparse, hproper⟩ :=
      @parseSettingsAt_proper mem size 0 (size + 1) 0 (Nat.zero_le _) (by omega)
    rw [if_neg hstale, hparse, or_iff_right hstale, ← hproper]
    constructor
    · rintro ⟨result, s', accesses', hresult, hok, -⟩
      cases flags with
      | none =>
          obtain ⟨-, -, rfl⟩ := by simpa using hresult
          exact hok
      | some flags =>
          obtain ⟨-, -, rfl⟩ := by simpa using hresult
          exact hok
    · intro hok
      cases flags with
      | none => exact ⟨false, s, accesses, rfl, hok, fun _ => rfl⟩
      | some flags => exact ⟨true, _, accesses, rfl, hok, nofun⟩

/-- Flags without data at the end of a payload take the byte behind it. -/
theorem settingsProcessAt_empty : ¬ ∀ (s : Settings) (seq : UInt16) (mem : ℕ → UInt8)
    (size : ℕ), SafelyProcessed s seq mem size := by
  intro h
  obtain ⟨result, s', accesses, hresult, hok, -⟩ :=
    h ⟨false, false, false, 0⟩ 1 (fun a => if a = 0 then stFlags else 0) 2
  have heq :
      settingsProcessAt ⟨false, false, false, 0⟩ 1 (fun a => if a = 0 then stFlags else 0) 2 =
      some (true, ⟨false, false, true, 1⟩, [.header 0, .header 1, .value 2 0 2]) := by decide
  rw [heq] at hresult
  obtain ⟨-, -, rfl⟩ := by simpa using hresult
  have hvalue := hok (.value 2 0 2) (by simp)
  simp [Access.Proper] at hvalue

end Sunela.Database
