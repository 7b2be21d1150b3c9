import Sunela.Model.EntryOps

/-! # The buffer of the entry page

Whatever happens on the page, the buffer holds a text of at most the maximum length, which only
keys that are visible and enabled add to. -/

namespace Sunela.UiEntry

variable {p : UiEntryParams} {c d : UiEntryCtx}

/-! ## Writing to the buffer -/

theorem store_eq {i : ℕ} (h : i < c.buf.length) (b : UInt8) :
    c.store i b = some { c with buf := c.buf.set i b } := by
  rw [UiEntryCtx.store, if_pos h]

/-- A buffer with a text, and with room for one more character. -/
theorem buf_eq (h : 0 ∈ c.buf) (hroom : c.text.bytes.length + 1 < c.buf.length) :
    ∃ b rest, c.buf = c.text.bytes ++ 0 :: b :: rest := by
  obtain ⟨rest, hrest⟩ := CString.exists_of_mem h
  change c.buf = c.text.bytes ++ 0 :: rest at hrest
  cases rest with
  | nil =>
      have hlen := congrArg List.length hrest
      simp only [List.length_append, List.length_singleton] at hlen
      omega
  | cons b rest => exact ⟨b, rest, hrest⟩

theorem set_after (s rest : Bytes) (a b : UInt8) :
    (s ++ a :: rest).set s.length b = s ++ b :: rest := by
  rw [List.set_append_right _ _ (Nat.le_refl _), Nat.sub_self, List.set_cons_zero]

theorem text_of_buf {s : Bytes} {rest : Bytes} (hs : 0 ∉ s) (h : c.buf = s ++ 0 :: rest) :
    c.text = ⟨s, hs⟩ := by
  rw [UiEntryCtx.text, h]
  exact CString.ofBuffer_append ⟨s, hs⟩ rest

/-- The last character is removed. -/
theorem store_delete (h : 0 ∈ c.buf) (hne : c.text ≠ .empty) :
    ∃ d, c.store (c.text.bytes.length - 1) 0 = some d ∧
      d = { c with buf := d.buf } ∧ d.buf.length = c.buf.length ∧ 0 ∈ d.buf ∧
      d.text.bytes = c.text.bytes.dropLast := by
  obtain ⟨rest, hrest⟩ := CString.exists_of_mem h
  change c.buf = c.text.bytes ++ 0 :: rest at hrest
  have hbytes : c.text.bytes ≠ [] := fun he => hne (CString.ext he)
  obtain ⟨s, b, hs⟩ : ∃ s b, c.text.bytes = s ++ [b] :=
    ⟨_, _, (List.dropLast_append_getLast hbytes).symm⟩
  have hlen : c.text.bytes.length - 1 = s.length := by simp [hs]
  have hnul : 0 ∉ s := fun hm => c.text.nulFree (by rw [hs]; exact List.mem_append_left _ hm)
  have hbuf : c.buf = s ++ b :: 0 :: rest := by rw [hrest, hs, List.append_assoc]; rfl
  have hroom : s.length < c.buf.length := by simp [hbuf]
  rw [hlen, store_eq hroom]
  refine ⟨_, rfl, rfl, List.length_set .., ?_, ?_⟩
  · simp [hbuf]
  · have hd : (c.buf.set s.length 0) = s ++ 0 :: 0 :: rest := by rw [hbuf, set_after]
    rw [@text_of_buf { c with buf := c.buf.set s.length 0 } s _ hnul hd, hs]
    simp

theorem store_clear (h : 0 ∈ c.buf) :
    ∃ d, c.store 0 0 = some d ∧ 0 ∈ d.buf ∧ d.text = .empty := by
  cases hbuf : c.buf with
  | nil => simp [hbuf] at h
  | cons b rest =>
      refine ⟨_, store_eq (by simp [hbuf]) 0, by simp [hbuf], ?_⟩
      exact @text_of_buf _ [] rest (by simp) (by simp [hbuf])

/-- A character is added to the text, or the text is as before. -/
theorem addCharacter_spec (h : 0 ∈ c.buf) (hroom : c.text.bytes.length + 1 < c.buf.length)
    (ch : UInt8) :
    ∃ d, addCharacter p c c.text.bytes.length ch = some d ∧
      d = { c with buf := d.buf } ∧ d.buf.length = c.buf.length ∧ 0 ∈ d.buf ∧
      (d.text = c.text ∨ d.text.bytes = c.text.bytes ++ [ch]) := by
  obtain ⟨b, rest, hbuf⟩ := buf_eq h hroom
  have hstored : addCharacter p c c.text.bytes.length ch =
      if p.input.validate.any fun validate =>
          decide (validate (CString.ofBuffer (c.text.bytes ++ ch :: 0 :: rest)) < 0) then
        some { c with buf := c.text.bytes ++ 0 :: 0 :: rest }
      else some { c with buf := c.text.bytes ++ ch :: 0 :: rest } := by
    have hfirst : c.buf.set c.text.bytes.length ch = (c.text.bytes ++ [ch]) ++ b :: rest := by
      rw [hbuf, set_after, List.append_assoc]
      rfl
    have hsecond : (c.buf.set c.text.bytes.length ch).set (c.text.bytes.length + 1) 0 =
        c.text.bytes ++ ch :: 0 :: rest := by
      have hlen : c.text.bytes.length + 1 = (c.text.bytes ++ [ch]).length := by simp
      rw [hfirst, hlen, set_after, List.append_assoc]
      rfl
    rw [addCharacter, store_eq (by omega), Option.bind_eq_bind, Option.bind_some,
      store_eq (by simpa using hroom), Option.bind_some]
    simp only [UiEntryCtx.text] at hsecond ⊢
    simp only [hsecond]
    split
    · next hv =>
        rw [store_eq (by simp), set_after]
        exact (if_pos hv).symm
    · next hv => exact (if_neg hv).symm
  have hlen : c.buf.length = (c.text.bytes ++ ch :: 0 :: rest).length := by simp [hbuf]
  rw [hstored]
  split
  · refine ⟨_, rfl, rfl, by simp [hlen], by simp, .inl ?_⟩
    exact text_of_buf c.text.nulFree rfl
  · refine ⟨_, rfl, rfl, by simp [hlen], by simp, ?_⟩
    by_cases hch : ch = 0
    · subst hch
      exact .inl (text_of_buf c.text.nulFree rfl)
    · right
      have hnul : 0 ∉ c.text.bytes ++ [ch] := by
        simp only [List.mem_append, List.mem_singleton, not_or]
        exact ⟨c.text.nulFree, fun he => hch he.symm⟩
      have ht := @text_of_buf { c with buf := c.text.bytes ++ ch :: 0 :: rest } _ rest hnul
        (by simp)
      rw [ht]

/-! ## Events -/

/-- The buffer holds a text that is not too long, and the timer is only set for a button that
can be drawn. -/
structure Valid (p : UiEntryParams) (c : UiEntryCtx) : Prop where
  terminated : 0 ∈ c.buf
  fits : c.text.bytes.length ≤ p.input.maxLen
  size : p.input.maxLen < c.buf.length
  drawn : c.tButton = true → drawButtonByPos p c c.down = true

/-- The key at a position can be tapped, and its character is this one. -/
structure Offers (p : UiEntryParams) (c : UiEntryCtx) (x y : ℕ) (ch : UInt8) : Prop where
  key : ∃ col row n, p.ops.pos x y = some (col, row) ∧ p.ops.n col row = .key n ∧
    buttonIsVisible p c (.key n) = true ∧ buttonIsEnabled p c (.key n) = true ∧
    match p.ops.keyChar with
    | some keyChar => ch = keyChar n
    | none =>
        match c.second with
        | some second => second.bytes[n.val]? = some ch
        | none => ∃ first, p.maps.first n = some first ∧ first.bytes.head? = some ch

/-- What an event can make of the text. -/
inductive Edited (p : UiEntryParams) (c : UiEntryCtx) (t : CString) : Event → Prop where
  | same {e : Event} (h : t = c.text) : Edited p c t e
  | deleted {x y : ℕ} (h : t.bytes = c.text.bytes.dropLast) : Edited p c t (.tap x y)
  | added {x y : ℕ} {ch : UInt8} (offers : Offers p c x y ch)
      (h : t.bytes = c.text.bytes ++ [ch]) : Edited p c t (.tap x y)
  | cleared (h : t = .empty) : Edited p c t (.swipe true)

/-- The text is one that may be returned. -/
def Returnable (p : UiEntryParams) (t : CString) : Prop :=
  t = .empty ∨ ∀ validate, p.input.validate = some validate → 0 < validate t

/-- What is expected of an event. -/
def Sound (p : UiEntryParams) (c : UiEntryCtx) (e : Event) : Outcome → Prop
  | .stay d => Valid p d ∧ Edited p c d.text e
  | .back accepted buf =>
      0 ∈ buf ∧ (CString.ofBuffer buf).bytes.length ≤ p.input.maxLen ∧
        Edited p c (.ofBuffer buf) e ∧ (accepted = false → Returnable p (.ofBuffer buf))
  | .undefined => False

theorem Valid.same (h : Valid p c) (e : Event) : Sound p c e (.stay c) := ⟨h, .same rfl⟩

theorem timerFlush_eq (h : Valid p c) : timerFlush p c = .stay { c with tButton := false } := by
  by_cases ht : c.tButton = true
  · rw [timerFlush, if_pos ht, if_pos (h.drawn ht)]
  · have hf : c.tButton = false := Bool.eq_false_iff.mpr ht
    rw [timerFlush, if_neg ht, ← hf]

theorem Valid.flushed (h : Valid p c) : Valid p { c with tButton := false } :=
  ⟨h.terminated, h.fits, h.size, fun ht => nomatch ht⟩

/-- A key of the second level that is visible can be drawn. -/
theorem drawn_of_visible {col row : ℕ} (h : buttonIsVisible p c (p.ops.n col row) = true) :
    drawButtonByPos p c (col, row) = true := by
  rw [drawButtonByPos]
  cases hn : p.ops.n col row with
  | key n =>
      cases hs : c.second with
      | none => rfl
      | some second =>
          rw [hn, buttonIsVisible, hs, decide_eq_true_eq] at h
          exact decide_eq_true (Nat.le_of_lt h)
  | _ => rfl

theorem uiEntryDown_sound (h : Valid p c) (x y : ℕ) :
    Sound p c (.down x y) (uiEntryDown p c x y) := by
  rw [uiEntryDown]
  cases p.ops.pos x y with
  | none => exact h.same _
  | some pos =>
      obtain ⟨col, row⟩ := pos
      simp only [timerFlush_eq h]
      by_cases hv : buttonIsVisible p { c with tButton := false } (p.ops.n col row) = true
      · by_cases he : buttonIsEnabled p { c with tButton := false } (p.ops.n col row) = true
        · have hd := drawn_of_visible hv
          simp only [hv, he, Bool.not_true, Bool.false_eq_true, if_false, hd, if_true]
          exact ⟨⟨h.terminated, h.fits, h.size, fun _ => hd⟩, .same rfl⟩
        · simp only [hv, he, Bool.not_true, Bool.false_eq_true, if_false, Bool.not_false, if_true]
          exact ⟨h.flushed, .same rfl⟩
      · simp only [hv, Bool.not_false, if_true]
        exact ⟨h.flushed, .same rfl⟩

/-- Which keys are enabled does not matter for the buffer. -/
theorem Valid.enabled (h : Valid p c) (set : UInt16) : Valid p { c with lastEnabled := set } :=
  ⟨h.terminated, h.fits, h.size, h.drawn⟩

theorem drawEnabledChange_eq {d' : UiEntryCtx} (h : ∃ set, d' = { d with lastEnabled := set }) :
    ∃ set, drawEnabledChange p d d' = { d with lastEnabled := set } := by
  rw [drawEnabledChange]
  cases p.ops.enabledSet with
  | none => exact h
  | some enabledSet => exact ⟨_, rfl⟩

theorem tapLeft_sound (h : Valid p c) (x y : ℕ) :
    Sound p c (.tap x y) (tapLeft p c c.text.bytes.length) := by
  rw [tapLeft]
  by_cases hs : c.second.isSome = true
  · rw [if_pos hs]
    exact ⟨⟨h.terminated, h.fits, h.size, fun ht => nomatch ht⟩, .same rfl⟩
  · rw [if_neg hs]
    by_cases he : c.text = .empty
    · rw [if_pos he]
      exact ⟨h.terminated, h.fits, .same rfl, fun _ => .inl he⟩
    · obtain ⟨d, hd, heq, hlen, hnul, htext⟩ := store_delete h.terminated he
      obtain ⟨set, hset⟩ := @drawEnabledChange_eq p d
        (if c.text.bytes.length = p.input.maxLen then drawFirst d true else d) (by
          split
          · exact ⟨_, rfl⟩
          · exact ⟨d.lastEnabled, rfl⟩)
      simp only [if_neg he, hd, hset]
      have hle : d.text.bytes.length ≤ p.input.maxLen := by
        rw [htext, List.length_dropLast]
        exact Nat.le_trans (Nat.sub_le _ _) h.fits
      have hdrawn : d.tButton = true → drawButtonByPos p d d.down = true := by
        rw [heq]
        exact h.drawn
      have hd : Valid p d := ⟨hnul, hle, by rw [hlen]; exact h.size, hdrawn⟩
      exact ⟨hd.enabled set, .deleted htext⟩

theorem tapEnd_sound {e : Event} (hd : Valid p d) (he : Edited p c d.text e) :
    Sound p c e (tapEnd p d) := by
  rw [tapEnd]
  split
  · exact ⟨hd.terminated, hd.fits, he, fun hf => nomatch hf⟩
  · exact ⟨hd, he⟩

/-- A character that is added is one of those the key has. -/
theorem character_offers {x y col row : ℕ} {n : Fin 10} {ch : UInt8}
    (hpos : p.ops.pos x y = some (col, row)) (hn : p.ops.n col row = .key n)
    (hv : buttonIsVisible p c (.key n) = true) (he : buttonIsEnabled p c (.key n) = true)
    (hch : character p c n = some ch) (hne : ch ≠ 0) : Offers p c x y ch := by
  refine ⟨col, row, n, hpos, hn, hv, he, ?_⟩
  rw [character] at hch
  cases hk : p.ops.keyChar with
  | some keyChar =>
      rw [hk] at hch
      exact (Option.some.inj hch).symm
  | none =>
      simp only [hk] at hch
      cases hs : c.second with
      | some second =>
          simp only [hs, buttonIsVisible, decide_eq_true_eq] at hch hv
          rwa [List.getElem?_append_left hv] at hch
      | none =>
          simp only [hs] at hch
          obtain ⟨first, hfirst, rfl⟩ := Option.map_eq_some_iff.mp hch
          refine ⟨first, hfirst, ?_⟩
          cases hb : first.bytes with
          | nil => simp [hb] at hne
          | cons b rest => rfl

/-- A visible key has a character. -/
theorem exists_character {n : Fin 10} (hv : buttonIsVisible p c (.key n) = true) :
    ∃ ch, character p c n = some ch := by
  rw [character]
  cases p.ops.keyChar with
  | some keyChar => exact ⟨_, rfl⟩
  | none =>
      cases hs : c.second with
      | some second =>
          simp only [buttonIsVisible, hs, decide_eq_true_eq] at hv
          exact ⟨_, List.getElem?_eq_getElem (by simp; omega)⟩
      | none =>
          simp only [buttonIsVisible, hs] at hv
          obtain ⟨first, hfirst⟩ := Option.isSome_iff_exists.mp hv
          exact ⟨_, by rw [hfirst]; rfl⟩

theorem length_ne_of_enabled {n : Fin 10} (h : buttonIsEnabled p c (.key n) = true) :
    c.text.bytes.length ≠ p.input.maxLen := by
  intro he
  rw [buttonIsEnabled, if_pos he] at h
  cases h

/-- What is left to do once the character is known. -/
theorem added_sound (h : Valid p c) {x y col row : ℕ} {n : Fin 10} {ch : UInt8}
    (hpos : p.ops.pos x y = some (col, row)) (hn : p.ops.n col row = .key n)
    (hv : buttonIsVisible p c (.key n) = true) (he : buttonIsEnabled p c (.key n) = true)
    (hch : character p c n = some ch) (tButton : Bool) :
    ∃ d, addCharacter p { c with tButton } c.text.bytes.length ch = some d ∧
      Sound p c (.tap x y) (tapEnd p (drawEnabledChange p { d with second := none }
        (drawFirst { d with second := none }
          (decide (({ d with second := none } : UiEntryCtx).text.bytes.length ≠
            p.input.maxLen))))) := by
  have hlt : c.text.bytes.length < p.input.maxLen :=
    Nat.lt_of_le_of_ne h.fits (length_ne_of_enabled he)
  have hsize := h.size
  have hroom : c.text.bytes.length + 1 < c.buf.length := by omega
  obtain ⟨d, hd, heq, hlen, hnul, htext⟩ :=
    @addCharacter_spec p { c with tButton } h.terminated hroom ch
  refine ⟨d, hd, ?_⟩
  have hedit : Edited p c d.text (.tap x y) := by
    rcases htext with htext | htext
    · exact .same htext
    · have hne : ch ≠ 0 := by
        rintro rfl
        exact d.text.nulFree (by rw [htext]; simp)
      exact .added (character_offers hpos hn hv he hch hne) htext
  have hle : d.text.bytes.length ≤ p.input.maxLen := by
    rcases htext with htext | htext
    · rw [htext]
      exact h.fits
    · rw [htext, List.length_append, List.length_singleton]
      exact hlt
  obtain ⟨set, hset⟩ := @drawEnabledChange_eq p { d with second := none }
    (drawFirst { d with second := none }
      (decide (({ d with second := none } : UiEntryCtx).text.bytes.length ≠ p.input.maxLen)))
    ⟨_, rfl⟩
  rw [hset]
  have hvalid : Valid p { d with second := none } := by
    refine ⟨hnul, hle, by rw [hlen]; exact hsize, fun _ => ?_⟩
    rw [drawButtonByPos]
    cases p.ops.n d.down.1 d.down.2 <;> rfl
  exact tapEnd_sound (hvalid.enabled set) hedit

theorem tapKey_sound (h : Valid p c) {x y col row : ℕ} {n : Fin 10}
    (hpos : p.ops.pos x y = some (col, row)) (hn : p.ops.n col row = .key n)
    (hv : buttonIsVisible p c (.key n) = true) (he : buttonIsEnabled p c (.key n) = true) :
    Sound p c (.tap x y) (tapKey p c c.text.bytes.length n) := by
  obtain ⟨ch, hch⟩ := exists_character hv
  rw [tapKey]
  split
  · next second hs hm =>
      exact tapEnd_sound ⟨h.terminated, h.fits, h.size, fun ht => nomatch ht⟩ (.same rfl)
  · simp only [hch]
    obtain ⟨d, hd, hsound⟩ := added_sound h hpos hn hv he hch
      (c.tButton && (p.ops.keyChar.isSome || c.second.isNone))
    simp only [hd]
    exact hsound

theorem returnable_of_valid {t : CString} (h : uiEntryValid p.input t = true) :
    Returnable p t := by
  rw [uiEntryValid, Bool.or_eq_true, decide_eq_true_eq] at h
  rcases h with h | h
  · exact .inl h
  · right
    intro validate hv
    rw [hv, Option.all_some, decide_eq_true_eq] at h
    exact h

theorem uiEntryTap_sound (h : Valid p c) (x y : ℕ) :
    Sound p c (.tap x y) (uiEntryTap p c x y) := by
  rw [uiEntryTap, if_neg (fun hn => hn h.terminated)]
  cases hpos : p.ops.pos x y with
  | none => exact h.same _
  | some pos =>
      obtain ⟨col, row⟩ := pos
      by_cases hv : buttonIsVisible p c (p.ops.n col row) = true
      · by_cases he : buttonIsEnabled p c (p.ops.n col row) = true
        · simp only [hv, he, Bool.not_true, Bool.false_eq_true, if_false]
          cases hn : p.ops.n col row with
          | left => exact tapLeft_sound h x y
          | right =>
              rw [hn, buttonIsEnabled, Bool.and_eq_true] at he
              exact ⟨h.terminated, h.fits, .same rfl, fun _ => returnable_of_valid he.2⟩
          | key n =>
              rw [hn] at hv he
              exact tapKey_sound h hpos hn hv he
          | invalid => exact h.same _
        · simp only [hv, he, Bool.not_true, Bool.false_eq_true, if_false, Bool.not_false, if_true]
          exact h.same _
      · simp only [hv, Bool.not_false, if_true]
        exact h.same _

theorem uiEntryTo_sound (h : Valid p c) (left : Bool) :
    Sound p c (.swipe left) (uiEntryTo c left) := by
  cases left with
  | false => exact h.same _
  | true =>
      obtain ⟨d, hd, hnul, htext⟩ := store_clear h.terminated
      simp only [uiEntryTo, if_true, hd]
      refine ⟨hnul, ?_, .cleared htext, fun _ => .inl htext⟩
      rw [show CString.ofBuffer d.buf = .empty from htext]
      exact Nat.zero_le _

/-- What an event does to a page with a text. -/
theorem uiEntryEvent_sound (h : Valid p c) (e : Event) : Sound p c e (uiEntryEvent p c e) := by
  cases e with
  | down x y => exact uiEntryDown_sound h x y
  | tap x y => exact uiEntryTap_sound h x y
  | swipe left => exact uiEntryTo_sound h left
  | cancel =>
      rw [uiEntryEvent, timerFlush_eq h]
      exact ⟨h.flushed, .same rfl⟩
  | timer =>
      rw [uiEntryEvent, timerFlush_eq h]
      exact ⟨h.flushed, .same rfl⟩

/-! ## Runs -/

theorem uiEntryOpen_valid {buf : Bytes} (hbuf : 0 ∈ buf) (hsize : p.input.maxLen < buf.length)
    (h : uiEntryOpen p buf = some c) : Valid p c := by
  rw [uiEntryOpen] at h
  split at h
  · next hle =>
      obtain rfl := Option.some.inj h
      exact ⟨hbuf, hle, hsize, fun ht => nomatch ht⟩
  · cases h

theorem Reached.valid (hr : Reached p c d) (h : Valid p c) : Valid p d := by
  induction hr with
  | start => exact h
  | @next d d' e run event ih =>
      have hs := uiEntryEvent_sound ih e
      rw [event] at hs
      exact hs.1

/-- Whatever happens on the page, there is a text in the buffer that is not too long, characters
are only added by the keys that have them, and the page returns with a text that is valid. -/
theorem uiEntry_sound {buf : Bytes} {c₀ : UiEntryCtx} (hbuf : 0 ∈ buf)
    (hsize : p.input.maxLen < buf.length) (hopen : uiEntryOpen p buf = some c₀)
    (hr : Reached p c₀ c) :
    0 ∈ c.buf ∧ c.text.bytes.length ≤ p.input.maxLen ∧
      ∀ e, Sound p c e (uiEntryEvent p c e) := by
  have h := hr.valid (uiEntryOpen_valid hbuf hsize hopen)
  exact ⟨h.terminated, h.fits, fun e => uiEntryEvent_sound h e⟩

theorem uiEntry_sound_open :
    let p : UiEntryParams := ⟨⟨2, none⟩, uiEntryTextMaps, wiGeneralEntryOps⟩
    let c : UiEntryCtx := ⟨[0, 0, 0], none, false, (0, 0), 2 ^ 11 - 1⟩
    0 ∈ c.buf ∧ c.text.bytes.length ≤ 2 ∧ ∀ e, Sound p c e (uiEntryEvent p c e) :=
  have hbuf : (0 : UInt8) ∈ [0, 0, 0] := by decide
  have hsize : 2 < [(0 : UInt8), 0, 0].length := by decide
  uiEntry_sound (p := ⟨⟨2, none⟩, uiEntryTextMaps, wiGeneralEntryOps⟩) hbuf hsize rfl .start

end Sunela.UiEntry
