import Sunela.Lib.Padding
import Sunela.Model.Sha
import Sunela.Verification.Bip39.RoundTrip

/-! # Blocks of a message

The blocks that the accelerator has been given and the beginning of the buffer are the bytes
hashed so far, however they were split. -/

namespace Sunela.Sha

open Bits Padding Bip39

/-- The triggers for some blocks. Only the first one starts a new hash. -/
def triggersOf (blocks : List Block) : List Trigger :=
  blocks.zipIdx.map fun b => ⟨b.1, b.2 ≠ 0⟩

theorem triggersOf_append (blocks : List Block) (b : Block) :
    triggersOf (blocks ++ [b]) = triggersOf blocks ++ [⟨b, blocks ≠ []⟩] := by
  simp [triggersOf, List.zipIdx_append]

/-- What was in the buffer up to the position stays there, and the data follows. -/
theorem Block.take_write (buf : Block) {pos : ℕ} {data : Bytes} (h : pos + data.length ≤ 64) :
    (buf.write pos data).toList.take (pos + data.length) = buf.toList.take pos ++ data := by
  apply List.ext_getElem
  · simp
    omega
  · intro i hi _
    have hlt : i < pos + data.length := by
      simp at hi
      omega
    simp only [List.getElem_take, Vector.getElem_toList, Block.write, Vector.getElem_ofFn]
    by_cases hpos : pos ≤ i
    · rw [if_pos ⟨hpos, hlt⟩, List.getElem_append_right (by simp; omega), List.getD_eq_getElem]
      · congr 1
        simp
        omega
      · omega
    · rw [if_neg fun hn => hpos hn.1, List.getElem_append_left (by simp; omega)]
      simp

/-- The bytes `m` have been hashed after the triggers `before`. -/
structure Collected (before : List Trigger) (m : Bytes) (blocks : List Block) (s : Driver) :
    Prop where
  got : s.got < sha1BlockBytes
  bytes : m = blocks.flatMap Vector.toList ++ s.buf.toList.take s.got
  triggers : s.triggers = before ++ triggersOf blocks
  hashSel : s.ctrl &&& maskHashSel ≠ 0 ↔ blocks ≠ []

variable {before : List Trigger} {m data : Bytes} {blocks : List Block} {s : Driver}

theorem flatMap_length (blocks : List Block) :
    (blocks.flatMap Vector.toList).length = 64 * blocks.length := by
  induction blocks with
  | nil => rfl
  | cons b blocks ih =>
      rw [List.flatMap_cons, List.length_append, ih, Vector.length_toList, List.length_cons]
      omega

theorem Collected.got_eq (h : Collected before m blocks s) : s.got = m.length % 64 := by
  have hgot : s.got < 64 := h.got
  have hlen := congrArg List.length h.bytes
  rw [List.length_append, flatMap_length, List.length_take, Vector.length_toList] at hlen
  omega

/-! ## Register -/

theorem or_and (a b m : UInt32) : (a ||| b) &&& m = a &&& m ||| b &&& m :=
  UInt32.toBitVec_inj.mp BitVec.and_or_distrib_right

theorem and_hashSel_trig (ctrl : UInt32) :
    (ctrl ||| maskTrig) &&& maskHashSel = ctrl &&& maskHashSel := by
  rw [or_and, show maskTrig &&& maskHashSel = 0 by decide, UInt32.or_zero]

theorem and_hashSel_set (ctrl : UInt32) : (ctrl ||| maskHashSel) &&& maskHashSel ≠ 0 := by
  rw [or_and, UInt32.and_self]
  intro h
  have hzero := (UInt32.or_eq_zero_iff.mp h).2
  exact absurd hzero (by decide)

/-- A new hash starts with the bit clear. -/
theorem shaBegin_hashSel (mode : UInt32) (s : Driver) :
    (shaBegin mode s).ctrl &&& maskHashSel = 0 := by
  have hold : ∀ ctrl : UInt32, ctrl &&& (shaDel maskModeExt &&& shaDel maskMode &&&
      shaDel maskCtrlMsgLen &&& ~~~maskHashSel &&& ~~~maskEn &&& ~~~maskTrig) &&& maskHashSel =
      0 := by
    intro ctrl
    rw [UInt32.and_assoc, show (shaDel maskModeExt &&& shaDel maskMode &&&
      shaDel maskCtrlMsgLen &&& ~~~maskHashSel &&& ~~~maskEn &&& ~~~maskTrig) &&& maskHashSel =
      0 by decide, UInt32.and_zero]
  have hmode : shaAdd maskMode 2 mode &&& maskHashSel = 0 := by
    rw [shaAdd, UInt32.and_comm maskMode, UInt32.and_assoc,
      show maskMode &&& maskHashSel = 0 by decide, UInt32.and_zero]
  simp only [shaBegin, or_and]
  rw [hold, hmode]
  decide

/-! ## Hashing -/

/-- A round of the loop hashes what it takes. -/
theorem Collected.collect (h : Collected before m blocks s) (hle : s.got + data.length ≤ 64) :
    ∃ blocks, Collected before (m ++ data) blocks (s.collect data) := by
  have hwrite := s.buf.take_write hle
  by_cases hfull : s.got + data.length = 64
  · refine ⟨blocks ++ [s.buf.write s.got data], ?_⟩
    have hall : (s.buf.write s.got data).toList = s.buf.toList.take s.got ++ data := by
      rw [← hwrite, hfull, List.take_of_length_le (by simp)]
    have hsel : decide (s.ctrl &&& maskHashSel ≠ 0) = decide (blocks ≠ []) :=
      decide_eq_decide.mpr h.hashSel
    have hcollect : s.collect data = _ := if_pos hfull
    rw [hcollect]
    constructor
    · exact Nat.zero_lt_succ 63
    · rw [List.flatMap_append, List.flatMap_singleton, hall, h.bytes]
      simp
    · simp only [Driver.trigger, h.triggers, and_hashSel_trig, hsel, triggersOf_append,
        List.append_assoc]
    · exact iff_of_true (and_hashSel_set _) (by simp)
  · refine ⟨blocks, ?_⟩
    have hcollect : s.collect data = _ := if_neg hfull
    rw [hcollect]
    constructor
    · have hgot : s.got + data.length < 64 := by omega
      exact hgot
    · rw [hwrite, h.bytes, List.append_assoc]
    · exact h.triggers
    · exact h.hashSel

theorem collect_length (s : Driver) (data : Bytes) : (s.collect data).length = s.length := by
  by_cases hfull : s.got + data.length = 64
  · have hcollect : s.collect data = _ := if_pos hfull
    rw [hcollect]
    rfl
  · have hcollect : s.collect data = _ := if_neg hfull
    rw [hcollect]

theorem Collected.loop (h : Collected before m blocks s) {fuel : ℕ}
    (hfuel : data.length ≤ fuel) :
    ∃ s' blocks, hashLoop fuel data s = some s' ∧ s'.length = s.length ∧
      Collected before (m ++ data) blocks s' := by
  induction fuel generalizing m blocks s data with
  | zero =>
      obtain rfl := List.length_eq_zero_iff.mp (Nat.le_zero.mp hfuel)
      exact ⟨s, blocks, rfl, rfl, by rwa [List.append_nil]⟩
  | succ fuel ih =>
      rw [hashLoop]
      by_cases hdata : data = []
      · rw [if_pos hdata]
        exact ⟨s, blocks, rfl, rfl, by rwa [hdata, List.append_nil]⟩
      · rw [if_neg hdata]
        have hgot : s.got < 64 := h.got
        have hpos := List.length_pos_of_ne_nil hdata
        have hthis : 0 < s.this data.length ∧ s.got + s.this data.length ≤ 64 := by
          by_cases hfit : s.got + data.length ≤ 64
          · have hthis : s.this data.length = data.length := if_pos hfit
            omega
          · have hthis : s.this data.length = 64 - s.got := if_neg hfit
            omega
        obtain ⟨blocks', hc⟩ := @Collected.collect _ _ (data.take (s.this data.length)) _ _ h (by
          rw [List.length_take]
          omega)
        obtain ⟨s', blocks'', hs', hlen, hc'⟩ := @ih _ (data.drop (s.this data.length)) _ _ hc (by
          rw [List.length_drop]
          omega)
        refine ⟨s', blocks'', hs', hlen.trans (collect_length _ _), ?_⟩
        rwa [List.append_assoc, List.take_append_drop] at hc'

/-- The bytes `m` have been hashed since the beginning. -/
structure Hashed (before : List Trigger) (m : Bytes) (s : Driver) : Prop where
  collected : ∃ blocks, Collected before m blocks s
  length : s.length = UInt64.ofNat m.length

theorem Hashed.got_eq (h : Hashed before m s) : s.got = m.length % 64 := by
  obtain ⟨blocks, hc⟩ := h.collected
  exact hc.got_eq

theorem Hashed.sha1Hash (h : Hashed before m s) (data : Bytes) :
    ∃ s', Sha.sha1Hash data s = some s' ∧ Hashed before (m ++ data) s' := by
  obtain ⟨blocks, hc⟩ := h.collected
  have hcount : Collected before m blocks
      { s with length := s.length + UInt64.ofNat data.length } := ⟨hc.1, hc.2, hc.3, hc.4⟩
  obtain ⟨s', blocks', hs', hlen, hc'⟩ := hcount.loop (Nat.le_refl data.length)
  rw [Sha.sha1Hash, if_neg (not_not.mpr hc.got)]
  refine ⟨s', hs', ⟨blocks', hc'⟩, ?_⟩
  rw [hlen, h.length, List.length_append, UInt64.ofNat_add]

theorem Hashed.hash (h : Hashed before m s) (alg : Alg) (data : Bytes) :
    ∃ s', alg.hash data s = some s' ∧ Hashed before (m ++ data) s' := by
  cases alg with
  | sha1 => exact h.sha1Hash data
  | sha256 => exact h.sha1Hash data

/-- Several calls in a row hash their parts one after the other. -/
theorem Hashed.calls {β : Type} {call : Driver → β → Option Driver} (part : β → Bytes)
    (hcall : ∀ m s c, Hashed before m s →
      ∃ s', call s c = some s' ∧ Hashed before (m ++ part c) s')
    (h : Hashed before m s) (cs : List β) :
    ∃ s', cs.foldlM call s = some s' ∧ Hashed before (m ++ cs.flatMap part) s' := by
  induction cs generalizing m s with
  | nil => exact ⟨s, rfl, by rwa [List.flatMap_nil, List.append_nil]⟩
  | cons c cs ih =>
      obtain ⟨s', hs', h'⟩ := hcall m s c h
      obtain ⟨s'', hs'', h''⟩ := ih h'
      refine ⟨s'', ?_, by rwa [List.flatMap_cons, ← List.append_assoc]⟩
      rw [List.foldlM_cons, hs']
      exact hs''

theorem shaBegin_hashed (mode : UInt32) (s : Driver) :
    Hashed s.triggers [] (shaBegin mode s) where
  collected := by
    refine ⟨[], ?_, ?_, ?_, ?_⟩
    · exact Nat.zero_lt_succ 63
    · rfl
    · exact (List.append_nil _).symm
    · exact iff_of_false (not_not.mpr (shaBegin_hashSel mode s)) (not_not.mpr rfl)
  length := rfl

theorem begin_hashed (alg : Alg) (s : Driver) : Hashed s.triggers [] (alg.begin s) := by
  cases alg with
  | sha1 => exact shaBegin_hashed modeSha1 s
  | sha256 => exact shaBegin_hashed modeSha256 s

end Sunela.Sha
