import Mathlib.Algebra.Order.Ring.Abs
import Mathlib.Data.Fintype.Prod
import Mathlib.Data.Nat.ModEq
import Mathlib.Logic.Equiv.Basic
import Mathlib.Tactic.FinCases
import Mathlib.Tactic.Linarith
import Mathlib.Tactic.NormNum
import Sunela.Model.Pin
import Sunela.Verification.Entry.Buffer

/-! # PINs are entered as they are shown

However the pad has been shuffled, what is entered are the digits on the buttons that are
tapped, and the number that is computed from a PIN tells it from all others. -/

namespace Sunela.PinPad

open UiEntry

/-! ## Pad -/

variable {shuffle : Shuffle}

theorem swap_bijective (a b : Fin 10) (h : shuffle.Bijective) : (swap shuffle a b).Bijective := by
  have hswap : swap shuffle a b = shuffle ∘ Equiv.swap a b := by
    funext k
    simp only [swap, Function.comp_apply, Equiv.swap_apply_def]
    split
    · rfl
    · split <;> rfl
  rw [hswap]
  exact h.comp (Equiv.swap a b).bijective

theorem foldl_swap_bijective (rnd : Fin 10 → Fin 10) (l : List (Fin 10))
    (h : shuffle.Bijective) : (l.foldl (fun s i => swap s i (rnd i)) shuffle).Bijective := by
  induction l generalizing shuffle with
  | nil => exact h
  | cons i l ih => exact ih (swap_bijective i (rnd i) h)

/-- The pad after it has been shuffled any number of times. -/
def shuffled (rnds : List (Fin 10 → Fin 10)) : Shuffle :=
  rnds.foldl (fun pinShuffle rnd => pinShufflePad rnd pinShuffle) id

theorem shuffled_bijective (rnds : List (Fin 10 → Fin 10)) : (shuffled rnds).Bijective := by
  have hfold : ∀ {s : Shuffle}, s.Bijective →
      (rnds.foldl (fun pinShuffle rnd => pinShufflePad rnd pinShuffle) s).Bijective := by
    induction rnds with
    | nil => exact fun h => h
    | cons rnd rnds ih => exact fun h => ih (foldl_swap_bijective rnd _ h)
  exact hfold Function.bijective_id

/-- The position of a button. -/
abbrev Place := Fin 3 × Fin 4

/-- The place of a number in the arrangement of a telephone. -/
def placeOf (k : Fin 10) : Place :=
  if k.val = 0 then (1, 0) else (Fin.ofNat 3 (k.val - 1), Fin.ofNat 4 (3 - (k.val - 1) / 3))

theorem wiPinEntryN_key (p : Place) (d : Fin 10) :
    wiPinEntryN shuffle p.1 p.2 = .key d ↔ ∃ k, placeOf k = p ∧ shuffle k = d := by
  obtain ⟨col, row⟩ := p
  have hall : ∀ (col : Fin 3) (row : Fin 4),
      (∃ k, placeOf k = (col, row) ∧ wiPinEntryN shuffle col row = .key (shuffle k) ∧
        ∀ j, placeOf j = (col, row) → j = k) ∨
      ((∀ k, placeOf k ≠ (col, row)) ∧ ∀ d, wiPinEntryN shuffle col row ≠ .key d) := by
    intro col row
    fin_cases col <;> fin_cases row
    · exact .inr ⟨by decide, by simp [wiPinEntryN]⟩
    · exact .inl ⟨7, by decide, rfl, by decide⟩
    · exact .inl ⟨4, by decide, rfl, by decide⟩
    · exact .inl ⟨1, by decide, rfl, by decide⟩
    · exact .inl ⟨0, by decide, rfl, by decide⟩
    · exact .inl ⟨8, by decide, rfl, by decide⟩
    · exact .inl ⟨5, by decide, rfl, by decide⟩
    · exact .inl ⟨2, by decide, rfl, by decide⟩
    · exact .inr ⟨by decide, by simp [wiPinEntryN]⟩
    · exact .inl ⟨9, by decide, rfl, by decide⟩
    · exact .inl ⟨6, by decide, rfl, by decide⟩
    · exact .inl ⟨3, by decide, rfl, by decide⟩
  rcases hall col row with ⟨k, hk, hn, huniq⟩ | ⟨hk, hn⟩
  · rw [hn, Button.key.injEq]
    constructor
    · exact fun h => ⟨k, hk, h⟩
    · rintro ⟨j, hj, rfl⟩
      rw [huniq j hj]
  · exact iff_of_false (hn d) fun ⟨k, h, _⟩ => hk k h

/-- Each digit is on one button. -/
theorem exists_button (h : shuffle.Bijective) (d : Fin 10) :
    ∃! p : Place, wiPinEntryN shuffle p.1 p.2 = .key d := by
  obtain ⟨k, rfl⟩ := h.2 d
  refine ⟨placeOf k, (wiPinEntryN_key _ _).mpr ⟨k, rfl, rfl⟩, fun p hp => ?_⟩
  obtain ⟨j, hj, heq⟩ := (wiPinEntryN_key p _).mp hp
  rw [← hj, h.1 heq]

/-- The position is on the disc of a button. -/
def OnDisc (p : Place) (x y : ℕ) : Prop :=
  (x - (buttonCenter p.1 p.2).1) ^ 2 + (y - (buttonCenter p.1 p.2).2) ^ 2 <
    (buttonR * buttonR + buttonR : ℤ)

/-- Both distances from the centre are at most the radius. -/
theorem OnDisc.near {p : Place} {x y : ℕ} (h : OnDisc p x y) :
    (-26 < (x : ℤ) - (buttonCenter p.1 p.2).1 ∧ (x : ℤ) - (buttonCenter p.1 p.2).1 < 26) ∧
      -26 < (y : ℤ) - (buttonCenter p.1 p.2).2 ∧ (y : ℤ) - (buttonCenter p.1 p.2).2 < 26 := by
  have hr : (buttonR * buttonR + buttonR : ℤ) < 26 ^ 2 := by decide
  have hx := sq_nonneg ((x : ℤ) - (buttonCenter p.1 p.2).1)
  have hy := sq_nonneg ((y : ℤ) - (buttonCenter p.1 p.2).2)
  unfold OnDisc at h
  constructor
  · exact abs_lt.mp (abs_lt_of_sq_lt_sq (by linarith) (by decide))
  · exact abs_lt.mp (abs_lt_of_sq_lt_sq (by linarith) (by decide))

/-- A tap on a disc hits its button. -/
theorem wiPinEntryPos_disc {p : Place} {x y : ℕ} (h : OnDisc p x y) :
    wiPinEntryPos x y = some (p.1.val, p.2.val) := by
  obtain ⟨⟨col, hcol⟩, ⟨row, hrow⟩⟩ := p
  obtain ⟨⟨hx1, hx2⟩, hy1, hy2⟩ := h.near
  have hX0 : buttonX0 = 50 := rfl
  have hXS : buttonXSpacing = 70 := rfl
  have hY0 : buttonY0 = 72 := rfl
  have hY1 : buttonY1 = 252 := rfl
  have hYS : buttonYSpacing = 60 := rfl
  have hR : buttonR = 25 := rfl
  simp only [buttonCenter, hX0, hXS, hY1, hYS] at hx1 hx2 hy1 hy2
  have hc : (if x < buttonX0 + buttonXSpacing / 2 then 0
      else if 2 * x < 2 * buttonX0 + 3 * buttonXSpacing then 1 else 2) = col := by
    split
    · omega
    · split <;> omega
  simp only [wiPinEntryPos, hc]
  rw [if_neg (by omega)]
  split
  · rw [show row = 3 by omega]
  · split
    · rw [show row = 0 by omega]
    · congr 2
      rw [hYS]
      omega

/-! ## Encoding -/

/-- The characters of digits. -/
def digits (ds : List (Fin 10)) : Bytes := ds.map fun d => UInt8.ofNat (48 + d.val)

/-- The number that `pin_encode` computes, before it is cut to 32 bits. -/
def encoded (ds : List (Fin 10)) : ℕ := ds.foldl (fun pin d => 16 * pin + d.val) (2 ^ 32 - 1)

variable {ds ds' : List (Fin 10)}

theorem digit_toInt (d : Fin 10) :
    (UInt32.ofInt (((UInt8.ofNat (48 + d.val)).toNat : ℤ) - 48)).toNat = d.val := by
  have hall : ∀ d : Fin 10,
      (UInt32.ofInt (((UInt8.ofNat (48 + d.val)).toNat : ℤ) - 48)).toNat = d.val := by decide
  exact hall d

theorem shift_or_toNat (pin c : UInt32) (hc : c.toNat < 16) :
    (pin <<< 4 ||| c).toNat = (16 * pin.toNat + c.toNat) % 2 ^ 32 := by
  have hmod : pin.toNat <<< 4 % 2 ^ 32 = (pin.toNat % 2 ^ 28) <<< 4 := by
    rw [Nat.shiftLeft_eq, Nat.shiftLeft_eq]
    omega
  rw [UInt32.toNat_or, UInt32.toNat_shiftLeft, show (4 : UInt32).toNat % 32 = 4 by rfl, hmod,
    ← Nat.shiftLeft_add_eq_or_of_lt (show c.toNat < 2 ^ 4 by omega), Nat.shiftLeft_eq]
  omega

theorem encoded_append (d : Fin 10) : encoded (ds ++ [d]) = 16 * encoded ds + d.val := by
  rw [encoded, List.foldl_append]
  rfl

theorem pinEncode_toNat : (Pin.pinEncode (digits ds)).toNat = encoded ds % 2 ^ 32 := by
  induction ds using List.reverseRecOn with
  | nil => rfl
  | append_singleton ds d ih =>
      have hstep : Pin.pinEncode (digits (ds ++ [d])) = Pin.pinEncode (digits ds) <<< 4 |||
          UInt32.ofInt (((UInt8.ofNat (48 + d.val)).toNat : ℤ) - 48) := by
        simp only [digits, List.map_append, List.map_cons, List.map_nil, Pin.pinEncode,
          List.foldl_append, List.foldl_cons, List.foldl_nil]
      have hd := d.isLt
      rw [hstep, shift_or_toNat _ _ (by rw [digit_toInt]; omega), digit_toInt, ih,
        encoded_append]
      omega

/-- No digit is taken for one of the ones that the number begins with. -/
theorem encoded_inj {m : ℕ} (hl : ds.length ≤ m) (hl' : ds'.length ≤ m)
    (h : encoded ds ≡ encoded ds' [MOD 16 ^ m]) : ds = ds' := by
  induction m generalizing ds ds' with
  | zero =>
      rw [List.length_eq_zero_iff.mp (Nat.le_zero.mp hl),
        List.length_eq_zero_iff.mp (Nat.le_zero.mp hl')]
  | succ m ih =>
      have hlow : encoded ds % 16 = encoded ds' % 16 :=
        h.of_dvd (Dvd.intro_left (16 ^ m) (pow_succ 16 m).symm)
      have hnil : encoded [] % 16 = 15 := by decide
      have happend : ∀ (l : List (Fin 10)) (d : Fin 10), encoded (l ++ [d]) % 16 = d.val := by
        intro l d
        have hd := d.isLt
        rw [encoded_append]
        omega
      rcases List.eq_nil_or_concat ds with rfl | ⟨l, d, rfl⟩
      · rcases List.eq_nil_or_concat ds' with rfl | ⟨l', d', rfl⟩
        · rfl
        · rw [hnil, List.concat_eq_append, happend] at hlow
          have hd := d'.isLt
          omega
      · rw [List.concat_eq_append] at hl h hlow ⊢
        rcases List.eq_nil_or_concat ds' with rfl | ⟨l', d', rfl⟩
        · rw [hnil, happend] at hlow
          have hd := d.isLt
          omega
        · rw [List.concat_eq_append] at hl' h hlow ⊢
          rw [happend, happend] at hlow
          have hd : d = d' := Fin.ext hlow
          subst hd
          rw [encoded_append, encoded_append, pow_succ, Nat.mul_comm (16 ^ m)] at h
          have hrest := Nat.ModEq.mul_left_cancel' (by decide) (Nat.ModEq.add_right_cancel' d.val h)
          simp only [List.length_append, List.length_singleton] at hl hl'
          rw [ih (by omega) (by omega) hrest]

theorem pinEncode_inj (hl : ds.length ≤ maxPinLen) (hl' : ds'.length ≤ maxPinLen)
    (h : Pin.pinEncode (digits ds) = Pin.pinEncode (digits ds')) : ds = ds' := by
  have hmod := congrArg UInt32.toNat h
  rw [pinEncode_toNat, pinEncode_toNat] at hmod
  exact encoded_inj hl hl' hmod

/-! ## Entry -/

/-- What has been entered, or what the page returns with. -/
inductive Typed where
  | entering (ds : List (Fin 10))
  | done (ds : List (Fin 10))

/-- What the user expects of a button. -/
def press (ds : List (Fin 10)) : Button → Typed
  | .key d => .entering (if ds.length < maxPinLen then ds ++ [d] else ds)
  | .left => if ds = [] then .done [] else .entering ds.dropLast
  | .right => if minPinLen ≤ ds.length then .done ds else .entering ds
  | .invalid => .entering ds

/-- The button that is tapped. -/
def tapped (shuffle : Shuffle) (x y : ℕ) : Button :=
  (wiPinEntryPos x y).elim .invalid fun p => wiPinEntryN shuffle p.1 p.2

def typeEvent (shuffle : Shuffle) (ds : List (Fin 10)) : Event → Typed
  | .tap x y => press ds (tapped shuffle x y)
  | .swipe true => .done []
  | _ => .entering ds

def typed (shuffle : Shuffle) (ds : List (Fin 10)) : List Event → Typed
  | [] => .entering ds
  | e :: es =>
      match typeEvent shuffle ds e with
      | .entering ds => typed shuffle ds es
      | .done ds => .done ds

/-- What becomes of the entry page. -/
def entered (p : UiEntryParams) (c : UiEntryCtx) : List Event → Outcome
  | [] => .stay c
  | e :: es =>
      match uiEntryEvent p c e with
      | .stay c => entered p c es
      | o => o

/-- The page is open, and its text is that of the digits. -/
structure Shows (shuffle : Shuffle) (c : UiEntryCtx) (ds : List (Fin 10)) : Prop where
  valid : Valid (pinParams shuffle) c
  second : c.second = none
  text : c.text.bytes = digits ds

/-- The outcome is the one that the user expects. -/
def Agrees (shuffle : Shuffle) : Outcome → Typed → Prop
  | .stay c, .entering ds => Shows shuffle c ds
  | .back _ buf, .done ds => (CString.ofBuffer buf).bytes = digits ds
  | _, _ => False

variable {c d : UiEntryCtx} {e : Event}

theorem digits_length : (digits ds).length = ds.length := List.length_map ..

theorem Shows.length (h : Shows shuffle c ds) : ds.length ≤ maxPinLen := by
  have hfits := h.valid.fits
  rwa [h.text, digits_length] at hfits

theorem Shows.empty_iff (h : Shows shuffle c ds) : c.text = .empty ↔ ds = [] := by
  constructor
  · intro he
    have hlen := congrArg List.length h.text
    rw [he, digits_length] at hlen
    exact List.length_eq_zero_iff.mp hlen.symm
  · rintro rfl
    exact CString.ext h.text

theorem Shows.visible (h : Shows shuffle c ds) (k : Fin 10) :
    buttonIsVisible (pinParams shuffle) c (.key k) = true := by
  have hall : ∀ k : Fin 10, (uiEntryDecimalMaps.first k).isSome = true := by decide
  simp only [buttonIsVisible, h.second]
  exact hall k

/-! ### Taps -/

theorem decimal_character (hs : c.second = none) (k : Fin 10) :
    character (pinParams shuffle) c k = some (UInt8.ofNat (48 + k.val)) := by
  have hall : ∀ k : Fin 10, ((uiEntryDecimalMaps.first k).map fun first => first.bytes.headD 0) =
      some (UInt8.ofNat (48 + k.val)) := by decide
  simp only [character, pinParams, wiPinEntryOps, hs]
  exact hall k

/-- No character is rejected. -/
theorem addCharacter_buf {last : ℕ} {ch : UInt8} (hlast : last + 1 < c.buf.length)
    (h : addCharacter (pinParams shuffle) c last ch = some d) :
    d.buf = (c.buf.set last ch).set (last + 1) 0 := by
  have haccept : ∀ s, ¬ validate s < 0 := by
    intro s
    unfold validate
    split <;> decide
  rw [addCharacter, store_eq (by omega), Option.bind_eq_bind, Option.bind_some,
    store_eq (by rw [List.length_set]; omega), Option.bind_some] at h
  simp only [pinParams, Option.any_some, haccept, decide_false, Bool.false_eq_true, if_false,
    Option.some.injEq] at h
  rw [← h]

/-- A digit is accepted whatever the text. -/
theorem addCharacter_digit (h : Shows shuffle c ds) (hlt : ds.length < maxPinLen) (k : Fin 10)
    (tButton : Bool) :
    ∃ d, addCharacter (pinParams shuffle) { c with tButton } c.text.bytes.length
        (UInt8.ofNat (48 + k.val)) = some d ∧
      d = { c with tButton, buf := d.buf } ∧ d.buf.length = c.buf.length ∧ 0 ∈ d.buf ∧
      d.text.bytes = digits (ds ++ [k]) := by
  have hlen : c.text.bytes.length = ds.length := by rw [h.text, digits_length]
  have hsize := h.valid.size
  have hroom : c.text.bytes.length + 1 < c.buf.length := by
    simp only [pinParams] at hsize
    omega
  obtain ⟨d, hd, heq, hbuf, hnul, htext⟩ := @addCharacter_spec (pinParams shuffle)
    { c with tButton } h.valid.terminated hroom (UInt8.ofNat (48 + k.val))
  refine ⟨d, hd, heq, hbuf, hnul, ?_⟩
  rcases htext with hsame | hadd
  · -- the character that has been stored is not the end of the text
    exfalso
    have hstored : d.buf[c.text.bytes.length]? = some (UInt8.ofNat (48 + k.val)) := by
      rw [addCharacter_buf (c := { c with tButton }) hroom hd, List.getElem?_set_ne (by omega)]
      exact List.getElem?_set_self (Nat.lt_of_succ_lt hroom)
    obtain ⟨rest, hrest⟩ := CString.exists_of_mem hnul
    change d.buf = d.text.bytes ++ 0 :: rest at hrest
    have hend : d.buf[c.text.bytes.length]? = some 0 := by
      have hlast : d.text.bytes.length = c.text.bytes.length := congrArg _ (congrArg _ hsame)
      rw [hrest, ← hlast]
      exact List.getElem?_append_right (Nat.le_refl _) |>.trans (by rw [Nat.sub_self]; rfl)
    have hne : ∀ k : Fin 10, UInt8.ofNat (48 + k.val) ≠ 0 := by decide
    exact hne k (Option.some.inj (hstored.symm.trans hend))
  · rw [hadd, digits, List.map_append, ← digits, ← h.text]
    rfl

theorem timerFlush_shows (h : Shows shuffle c ds) :
    Agrees shuffle (timerFlush (pinParams shuffle) c) (.entering ds) := by
  rw [timerFlush_eq h.valid]
  exact ⟨h.valid.flushed, h.second, h.text⟩

theorem uiEntryDown_shows (h : Shows shuffle c ds) (x y : ℕ) :
    Agrees shuffle (uiEntryDown (pinParams shuffle) c x y) (.entering ds) := by
  have hsound := uiEntryDown_sound h.valid x y
  cases hd : uiEntryDown (pinParams shuffle) c x y with
  | stay d =>
      rw [hd] at hsound
      obtain ⟨hvalid, hedit⟩ := hsound
      have htext : d.text = c.text := by
        cases hedit with
        | same h => exact h
      have hsecond : d.second = c.second := by
        rw [uiEntryDown] at hd
        split at hd
        · obtain rfl := Outcome.stay.inj hd
          rfl
        · rw [timerFlush_eq h.valid] at hd
          simp only at hd
          split at hd
          · rw [← Outcome.stay.inj hd]
          · split at hd
            · rw [← Outcome.stay.inj hd]
            · split at hd
              · rw [← Outcome.stay.inj hd]
              · cases hd
      exact ⟨hvalid, hsecond.trans h.second, (congrArg _ htext).trans h.text⟩
  | back accepted buf =>
      rw [hd] at hsound
      exfalso
      rw [uiEntryDown] at hd
      split at hd
      · cases hd
      · rw [timerFlush_eq h.valid] at hd
        simp only at hd
        split at hd
        · cases hd
        · split at hd
          · cases hd
          · split at hd <;> cases hd
  | undefined =>
      rw [hd] at hsound
      exact hsound

theorem Shows.enabled (h : Shows shuffle c ds) (set : UInt16) :
    Shows shuffle { c with lastEnabled := set } ds := ⟨h.valid.enabled set, h.second, h.text⟩

theorem tapLeft_shows (h : Shows shuffle c ds) :
    Agrees shuffle (tapLeft (pinParams shuffle) c c.text.bytes.length) (press ds .left) := by
  have hs : ¬ c.second.isSome = true := by simp [h.second]
  rw [tapLeft, if_neg hs, press]
  by_cases he : ds = []
  · rw [if_pos (h.empty_iff.mpr he), if_pos he]
    subst he
    exact h.text
  · have hne : c.text ≠ .empty := fun hc => he (h.empty_iff.mp hc)
    rw [if_neg hne, if_neg he]
    have hvalid := tapLeft_sound h.valid 0 0
    rw [tapLeft, if_neg hs, if_neg hne] at hvalid
    obtain ⟨d, hd, heq, -, -, htext⟩ := store_delete h.valid.terminated hne
    simp only [hd] at hvalid ⊢
    obtain ⟨set, hset⟩ := @drawEnabledChange_eq (pinParams shuffle) d
      (if c.text.bytes.length = (pinParams shuffle).input.maxLen then drawFirst d true else d) (by
        split
        · exact ⟨_, rfl⟩
        · exact ⟨d.lastEnabled, rfl⟩)
    rw [hset] at hvalid ⊢
    refine ⟨hvalid.1, ?_, ?_⟩
    · rw [heq]
      exact h.second
    · rw [digits, List.map_dropLast, ← digits, ← h.text]
      exact htext

/-- Without a second level, all buttons can be drawn. -/
theorem drawButtonByPos_first {p : UiEntryParams} {pos : ℕ × ℕ} (h : c.second = none) :
    drawButtonByPos p c pos = true := by
  rw [drawButtonByPos, h]
  cases p.ops.n pos.1 pos.2 <;> rfl

theorem tapKey_shows (h : Shows shuffle c ds) (hlt : ds.length < maxPinLen) (k : Fin 10) :
    Agrees shuffle (tapKey (pinParams shuffle) c c.text.bytes.length k)
      (press ds (.key k)) := by
  obtain ⟨d, hd, heq, hlen, hnul, htext⟩ := addCharacter_digit h hlt k
    (c.tButton && ((pinParams shuffle).ops.keyChar.isSome || c.second.isNone))
  have hkey : tapKey (pinParams shuffle) c c.text.bytes.length k =
      tapEnd (pinParams shuffle) (drawEnabledChange (pinParams shuffle) { d with second := none }
        (drawFirst { d with second := none }
          (decide (d.text.bytes.length ≠ (pinParams shuffle).input.maxLen)))) := by
    have hmap : (pinParams shuffle).maps.second k = none := rfl
    rw [tapKey]
    split
    · next hm => exact absurd (hmap.symm.trans hm) (by simp)
    · simp only [decimal_character h.second, hd]
      rfl
  obtain ⟨set, hset⟩ := @drawEnabledChange_eq (pinParams shuffle) { d with second := none }
    (drawFirst { d with second := none }
      (decide (d.text.bytes.length ≠ (pinParams shuffle).input.maxLen))) ⟨_, rfl⟩
  rw [hkey, hset, press, if_pos hlt]
  have hfits : d.text.bytes.length ≤ maxPinLen := by
    rw [htext, digits_length, List.length_append, List.length_singleton]
    omega
  have hvalid : Valid (pinParams shuffle) { d with second := none } :=
    ⟨hnul, hfits, by rw [hlen]; exact h.valid.size, fun _ => drawButtonByPos_first rfl⟩
  exact ⟨hvalid.enabled set, rfl, htext⟩

theorem uiEntryTap_shows (h : Shows shuffle c ds) (x y : ℕ) :
    Agrees shuffle (uiEntryTap (pinParams shuffle) c x y) (press ds (tapped shuffle x y)) := by
  rw [uiEntryTap, if_neg (fun hn => hn h.valid.terminated)]
  cases hpos : wiPinEntryPos x y with
  | none =>
      have hp : (pinParams shuffle).ops.pos x y = none := hpos
      rw [hp, tapped, hpos]
      exact h
  | some pos =>
      obtain ⟨col, row⟩ := pos
      have hp : (pinParams shuffle).ops.pos x y = some (col, row) := hpos
      have hn : (pinParams shuffle).ops.n col row = wiPinEntryN shuffle col row := rfl
      have htap : tapped shuffle x y = wiPinEntryN shuffle col row := by rw [tapped, hpos]; rfl
      rw [hp, htap]
      simp only [hn]
      cases hb : wiPinEntryN shuffle col row with
      | left => exact tapLeft_shows h
      | right =>
          have hlen : c.text.bytes.length = ds.length := by rw [h.text, digits_length]
          have hmax := h.length
          have hvis : buttonIsVisible (pinParams shuffle) c .right = true := by
            simp [buttonIsVisible, h.second]
          have hen : buttonIsEnabled (pinParams shuffle) c .right =
              decide (minPinLen ≤ ds.length) := by
            have hvalid : 0 < validate c.text ↔ minPinLen ≤ ds.length := by
              unfold validate
              split <;> omega
            rw [Bool.eq_iff_iff, buttonIsEnabled, uiEntryValid]
            simp only [pinParams, Option.all_some, Bool.and_eq_true, Bool.or_eq_true,
              decide_eq_true_eq, hvalid, ne_eq, h.empty_iff]
            constructor
            · exact fun he => he.2.resolve_left he.1
            · intro he
              refine ⟨?_, .inr he⟩
              rintro rfl
              exact absurd he (by simp [minPinLen])
          simp only [hvis, hen, Bool.not_true, Bool.false_eq_true, if_false, press]
          by_cases hmin : minPinLen ≤ ds.length
          · simp only [hmin, decide_true, Bool.not_true, Bool.false_eq_true, if_false, if_true]
            exact h.text
          · simp only [hmin, decide_false, Bool.not_false, if_true, if_false]
            exact h
      | key k =>
          have hen : buttonIsEnabled (pinParams shuffle) c (.key k) =
              decide (ds.length < maxPinLen) := by
            have hlen : c.text.bytes.length = ds.length := by rw [h.text, digits_length]
            have hmax := h.length
            simp only [buttonIsEnabled, pinParams, wiPinEntryOps, hlen]
            by_cases he : ds.length = maxPinLen
            · simp [he]
            · simp [he, show ds.length < maxPinLen by omega]
          simp only [h.visible k, hen, Bool.not_true, Bool.false_eq_true, if_false]
          by_cases hlt : ds.length < maxPinLen
          · simp only [hlt, decide_true, Bool.not_true, Bool.false_eq_true, if_false]
            exact tapKey_shows h hlt k
          · simp only [hlt, decide_false, Bool.not_false, if_true, press, if_false]
            exact h
      | invalid => exact h

/-! ### Runs -/

theorem uiEntryEvent_shows (h : Shows shuffle c ds) (e : Event) :
    Agrees shuffle (uiEntryEvent (pinParams shuffle) c e) (typeEvent shuffle ds e) := by
  cases e with
  | down x y => exact uiEntryDown_shows h x y
  | tap x y => exact uiEntryTap_shows h x y
  | swipe left =>
      cases left with
      | false => exact h
      | true =>
          obtain ⟨d, hd, -, htext⟩ := store_clear h.valid.terminated
          simp only [uiEntryEvent, uiEntryTo, if_true, hd]
          exact congrArg CString.bytes htext
  | cancel => exact timerFlush_shows h
  | timer => exact timerFlush_shows h

theorem entered_agrees (h : Shows shuffle c ds) (es : List Event) :
    Agrees shuffle (entered (pinParams shuffle) c es) (typed shuffle ds es) := by
  induction es generalizing c ds with
  | nil => exact h
  | cons e es ih =>
      have hstep := uiEntryEvent_shows h e
      rw [entered, typed]
      cases ho : uiEntryEvent (pinParams shuffle) c e with
      | stay d =>
          cases ht : typeEvent shuffle ds e with
          | entering ds' =>
              rw [ho, ht] at hstep
              exact ih hstep
          | done ds' =>
              rw [ho, ht] at hstep
              exact hstep.elim
      | back accepted buf =>
          cases ht : typeEvent shuffle ds e with
          | entering ds' =>
              rw [ho, ht] at hstep
              exact hstep.elim
          | done ds' =>
              rw [ho, ht] at hstep
              exact hstep
      | undefined =>
          rw [ho] at hstep
          cases ht : typeEvent shuffle ds e <;> rw [ht] at hstep <;> exact hstep.elim

/-- What is entered is never too long, and what is returned can be a PIN, or is nothing. -/
def Typed.Fits : Typed → Prop
  | .entering ds => ds.length ≤ maxPinLen
  | .done ds => ds = [] ∨ minPinLen ≤ ds.length ∧ ds.length ≤ maxPinLen

theorem press_fits (h : ds.length ≤ maxPinLen) (b : Button) : (press ds b).Fits := by
  cases b with
  | key d =>
      rw [press]
      split
      · exact (List.length_append ..).trans_le ‹_›
      · exact h
  | left =>
      rw [press]
      split
      · exact .inl rfl
      · exact (List.length_dropLast ..).trans_le ((Nat.sub_le _ _).trans h)
  | right =>
      rw [press]
      split
      · next hmin => exact .inr ⟨hmin, h⟩
      · exact h
  | invalid => exact h

theorem typeEvent_fits (h : ds.length ≤ maxPinLen) (e : Event) :
    (typeEvent shuffle ds e).Fits := by
  cases e with
  | tap x y => exact press_fits h _
  | swipe left =>
      cases left with
      | false => exact h
      | true => exact .inl rfl
  | _ => exact h

theorem typed_fits (h : ds.length ≤ maxPinLen) (es : List Event) :
    (typed shuffle ds es).Fits := by
  induction es generalizing ds with
  | nil => exact h
  | cons e es ih =>
      have hstep := @typeEvent_fits shuffle _ h e
      rw [typed]
      cases ht : typeEvent shuffle ds e with
      | entering ds' =>
          rw [ht] at hstep
          exact ih hstep
      | done ds' =>
          rw [ht] at hstep
          exact hstep

theorem typed_length {es : List Event} (h : typed shuffle [] es = .done ds) :
    ds.length ≤ maxPinLen := by
  have hfits := @typed_fits shuffle [] (Nat.zero_le _) es
  rw [h] at hfits
  rcases hfits with rfl | hfits
  · exact Nat.zero_le _
  · exact hfits.2

/-- Each digit is on one button, a tap on the disc of a button hits it, and whatever happens on
the page, its buffer has the digits of the buttons that are tapped. PINs that are entered on
this pad and on another one have the same number only if they have the same digits. -/
structure Enters (shuffle : Shuffle) : Prop where
  button : ∀ d, ∃! p : Place, wiPinEntryN shuffle p.1 p.2 = .key d
  disc : ∀ p x y, OnDisc p x y → tapped shuffle x y = wiPinEntryN shuffle p.1 p.2
  entry : ∃ c, uiEntryOpen (pinParams shuffle) (List.replicate (maxPinLen + 1) 0) = some c ∧
    ∀ es, Agrees shuffle (entered (pinParams shuffle) c es) (typed shuffle [] es) ∧
      (typed shuffle [] es).Fits
  number : ∀ rnds es es' ds ds', typed shuffle [] es = .done ds →
    typed (shuffled rnds) [] es' = .done ds' →
    (Pin.pinEncode (digits ds) = Pin.pinEncode (digits ds') ↔ ds = ds')

theorem pinPad_enters (rnds : List (Fin 10 → Fin 10)) : Enters (shuffled rnds) where
  button d := exists_button (shuffled_bijective rnds) d
  disc p x y h := by
    rw [tapped, wiPinEntryPos_disc h]
    rfl
  entry := by
    refine ⟨_, rfl, fun es => ⟨entered_agrees ?_ es, typed_fits (Nat.zero_le _) es⟩⟩
    have hsize : maxPinLen < (List.replicate (maxPinLen + 1) (0 : UInt8)).length := by simp
    exact ⟨uiEntryOpen_valid (by simp) hsize rfl, rfl, rfl⟩
  number rnds' es es' ds ds' h h' := by
    constructor
    · exact pinEncode_inj (typed_length h) (typed_length h')
    · rintro rfl
      rfl

end Sunela.PinPad
