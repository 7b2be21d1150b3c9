import Sunela.Verification.Edit.Stored
import Sunela.Verification.Fmt.Decimal
import Sunela.Verification.Hotp.Counter

/-! # Fields that are accepted unchanged

A field is presented as a text. If the user accepts it as it is, the same bytes should be stored
again. -/

namespace Sunela.FieldEdit

open Program Storage Block Entry Fields Database Remote UiEntry Fmt Base32 Bits Bip39 Hotp

variable {fields : List DbField} {f : DbField} {params : UiEntryParams} {buf : Bytes}

/-! ## Accepting -/

/-- The first thing that the user does is to tap the button that accepts the text. -/
def Accepts (o : Opened) : Prop :=
  ∃ x y, wiEntryPos x y = some (2, 0) ∧ uiEntryTap o.params o.page x y = .back false o.page.buf

/-- The page stays inside its buffers, and stores the bytes of the field again if the text is
accepted as it is presented. -/
def Restores (fields : List DbField) (f : DbField) : Prop :=
  uiFieldEditOpen f.type fields ≠ .error .undefined ∧
    ∀ o, uiFieldEditOpen f.type fields = .ok o → Accepts o →
      StoresExactly f.type o.page.text f.data

/-- The text is accepted if it is valid. -/
theorem accepts_iff {c : UiEntryCtx} (hops : params.ops = wiGeneralEntryOps)
    (hbuf : 0 ∈ c.buf) (hsecond : c.second = none) :
    Accepts ⟨params, c⟩ ↔ c.text ≠ .empty ∧ uiEntryValid params.input c.text = true := by
  have hvisible : buttonIsVisible params c .right = true := by simp [buttonIsVisible, hsecond]
  have htap : ∀ x y, wiEntryPos x y = some (2, 0) → uiEntryTap params c x y =
      if buttonIsEnabled params c .right then .back false c.buf else .stay c := by
    intro x y hpos
    have hright : wiGeneralEntryN 2 0 = .right := rfl
    rw [uiEntryTap, if_neg (not_not.mpr hbuf), hops]
    simp only [wiGeneralEntryOps, hpos, hright, hvisible]
    cases buttonIsEnabled params c .right <;> rfl
  have henabled : buttonIsEnabled params c .right = true ↔
      c.text ≠ .empty ∧ uiEntryValid params.input c.text = true := by simp [buttonIsEnabled]
  rw [← henabled]
  constructor
  · rintro ⟨x, y, hpos, hback⟩
    by_contra hne
    rw [htap x y hpos, if_neg hne] at hback
    cases hback
  · intro he
    exact ⟨200, 250, by decide, by rw [htap 200 250 (by decide), if_pos he]⟩

/-- The page for the text right after it has been opened. -/
def openedPage (params : UiEntryParams) (buf : Bytes) : UiEntryCtx :=
  drawFirst ⟨buf, none, false, (0, 0), 0⟩
    (decide ((CString.ofBuffer buf).bytes.length ≠ params.input.maxLen))

theorem uiEntryOpen_eq (params : UiEntryParams) (buf : Bytes) : uiEntryOpen params buf =
    if (CString.ofBuffer buf).bytes.length ≤ params.input.maxLen then some (openedPage params buf)
    else none := rfl

/-- What is left to show once the field has been copied to the buffer. -/
theorem restores_iff (hfind : dbFieldFind fields f.type = some f)
    (hp : presented f.type (some f) = .ok (params, buf)) (hops : params.ops = wiGeneralEntryOps)
    (hbuf : 0 ∈ buf) :
    Restores fields f ↔ ((CString.ofBuffer buf).bytes.length ≤ params.input.maxLen →
      CString.ofBuffer buf ≠ .empty → uiEntryValid params.input (.ofBuffer buf) = true →
      StoresExactly f.type (.ofBuffer buf) f.data) := by
  have hopen : uiFieldEditOpen f.type fields =
      (uiEntryOpen params buf).elim (.error .failed) fun page => .ok ⟨params, page⟩ := by
    rw [uiFieldEditOpen, hfind, hp]
    simp only [bind, Except.bind]
    cases uiEntryOpen params buf <;> rfl
  rw [Restores, hopen, uiEntryOpen_eq]
  by_cases hle : (CString.ofBuffer buf).bytes.length ≤ params.input.maxLen
  · have haccepts := accepts_iff (c := openedPage params buf) hops hbuf rfl
    rw [if_pos hle]
    constructor
    · rintro ⟨-, hall⟩ - hne hv
      exact hall _ rfl (haccepts.mpr ⟨hne, hv⟩)
    · intro hall
      refine ⟨by simp, fun o heq ha => ?_⟩
      obtain rfl := Except.ok.inj heq
      obtain ⟨hne, hv⟩ := haccepts.mp ha
      exact hall hle hne hv
  · rw [if_neg hle]
    refine iff_of_true ⟨fun h => ?_, fun o h => ?_⟩ fun h => absurd h hle
    · exact absurd (Except.error.inj h) (by decide)
    · cases h

theorem store_ok {data : Bytes} (h : data.length ≤ buf.length) :
    store buf data = .ok (data ++ buf.drop data.length) := by
  rw [store, if_pos h, overwrite, List.take_zero, List.nil_append, Nat.zero_add]

/-- The text is in the buffer, and the rest of it is zero. -/
theorem store_text {s : CString} (h : s.bytes.length + 1 ≤ buf.length) :
    ∃ buf', store buf (s.bytes ++ [0]) = .ok buf' ∧ 0 ∈ buf' ∧ CString.ofBuffer buf' = s := by
  have hlen : (s.bytes ++ [0]).length ≤ buf.length := by simpa using h
  refine ⟨_, store_ok hlen, by simp, ?_⟩
  rw [List.append_assoc, List.singleton_append]
  exact CString.ofBuffer_append s _

theorem newBuf_length : newBuf.length = maxStringLen + 1 := List.length_replicate

/-- Outside of the buffer nothing is written. -/
theorem not_restores (hfind : dbFieldFind fields f.type = some f)
    (hp : presented f.type (some f) = .error .undefined) : ¬ Restores fields f := by
  rintro ⟨hne, -⟩
  apply hne
  rw [uiFieldEditOpen, hfind, hp]
  rfl

/-! ## Strings -/

theorem edited_string {text : CString} {type : UInt8} (ht : type ∈ stringTypes)
    (hne : text ≠ .empty) : edited type text = .change text.bytes text.bytes.length := by
  rw [edited, if_neg hne, if_pos ht]

theorem presented_string {type : UInt8} {b : Bytes} (ht : type ∈ stringTypes)
    (h : copyString newBuf (some f) = .ok b) : presented type (some f) =
      .ok (⟨⟨maxStringLen, none⟩, uiEntryTextMaps, wiGeneralEntryOps⟩, b) := by
  rw [presented, if_pos ht, h]
  rfl

theorem ofBuffer_length_lt {b : Bytes} (h : 0 ∈ b) :
    (CString.ofBuffer b).bytes.length < b.length := by
  obtain ⟨rest, hrest⟩ := CString.exists_of_mem h
  have hlen := congrArg List.length hrest
  simp only [List.length_append, List.length_cons] at hlen
  omega

theorem ofBuffer_append_of_mem {b rest : Bytes} (h : 0 ∈ b) :
    CString.ofBuffer (b ++ rest) = .ofBuffer b := by
  obtain ⟨tail, htail⟩ := CString.exists_of_mem h
  rw [htail, List.append_assoc, List.cons_append, CString.ofBuffer_append, ← htail]

theorem ofBuffer_eq_empty {b : Bytes} (h : 0 ∈ b) :
    CString.ofBuffer b = .empty ↔ b.head? = some 0 := by
  cases b with
  | nil => cases h
  | cons x b =>
      rw [CString.ofBuffer, List.head?_cons]
      by_cases hx : x = 0
      · simp [hx]
      · simp [hx, CString.cons, CString.empty]

theorem restores_string (ht : f.type ∈ stringTypes)
    (hfind : dbFieldFind fields f.type = some f) :
    Restores fields f ↔
      f.data.length ≤ maxStringLen ∧ (0 ∉ f.data ∨ f.data.head? = some 0) := by
  by_cases hle : f.data.length ≤ maxStringLen
  · have hlen : (f.data ++ [0]).length ≤ newBuf.length := by
      rw [newBuf_length, List.length_append]
      exact Nat.succ_le_succ hle
    have hp := presented_string ht (store_ok hlen)
    have hmem : 0 ∈ f.data ++ [0] ++ newBuf.drop (f.data ++ [0]).length := by simp
    rw [restores_iff hfind hp rfl hmem, and_iff_right hle]
    by_cases hnul : 0 ∈ f.data
    · rw [List.append_assoc, ofBuffer_append_of_mem hnul]
      have hlt := ofBuffer_length_lt hnul
      have hfits : (CString.ofBuffer f.data).bytes.length ≤ maxStringLen := by omega
      constructor
      · intro hall
        refine .inr ((ofBuffer_eq_empty hnul).mp ?_)
        by_contra hne
        obtain ⟨object, hobject, -⟩ := (hall hfits hne (by simp [uiEntryValid])).call
        rw [edited_string ht hne] at hobject
        exact absurd (Edited.change.inj hobject).2 (Nat.ne_of_lt hlt)
      · intro hcond _ hne
        exact absurd ((ofBuffer_eq_empty hnul).mpr (hcond.resolve_left (not_not.mpr hnul))) hne
    · have htext : CString.ofBuffer (f.data ++ [0] ++ newBuf.drop (f.data ++ [0]).length) =
          ⟨f.data, hnul⟩ := by
        rw [List.append_assoc]
        exact CString.ofBuffer_append ⟨f.data, hnul⟩ _
      rw [htext]
      refine iff_of_true (fun _ hne _ => ?_) (.inl hnul)
      exact storesExactly_of_call f.fits (edited_string ht hne) List.take_length
  · refine iff_of_false (not_restores hfind ?_) fun h => hle h.1
    have hlong : ¬ (f.data ++ [0]).length ≤ newBuf.length := by
      rw [newBuf_length, List.length_append]
      exact fun h => hle (Nat.le_of_succ_le_succ h)
    rw [presented, if_pos ht, copyString, store, if_neg hlong]
    rfl

/-! ## Secrets -/

theorem notMem_stringTypes {type : UInt8} (ht : type ∈ secretTypes) : type ∉ stringTypes := by
  simp only [secretTypes, List.mem_cons, List.not_mem_nil, or_false] at ht
  rcases ht with rfl | rfl <;> decide

theorem presented_secret {type : UInt8} {b : Bytes} (ht : type ∈ secretTypes)
    (h : copyBase32 newBuf (some f) = .ok b) : presented type (some f) =
      .ok (⟨⟨maxStringLen, some validateBase32⟩, uiEntryTextMaps, wiGeneralEntryOps⟩, b) := by
  rw [presented, if_neg (notMem_stringTypes ht), if_pos ht, h]
  rfl

/-- The secret is short enough for the editor. -/
theorem restores_shortSecret (ht : f.type ∈ secretTypes)
    (hfind : dbFieldFind fields f.type = some f) (hle : f.data.length ≤ maxSecretLen) :
    Restores fields f := by
  have hsize : base32EncodeSize f.data.length ≤ base32EncodeSize maxSecretLen := by
    simp only [base32EncodeSize]
    omega
  obtain ⟨text, is, henc, hlen, hcodes⟩ := base32Encode_encodes f.data hsize
  have hroom : text.length + 1 ≤ newBuf.length := by
    rw [hlen, newBuf_length]
    exact Nat.le_trans hsize (by decide)
  obtain ⟨b, hstore, hmem, htext⟩ := @store_text newBuf ⟨text, hcodes.nulFree⟩ hroom
  have hcopy : copyBase32 newBuf (some f) = .ok b := by
    rw [copyBase32, henc]
    exact hstore
  rw [restores_iff hfind (presented_secret ht hcopy) rfl hmem, htext]
  intro _ hne _
  have hdecode : base32Decode maxSecretLen ⟨text, hcodes.nulFree⟩ =
      ((f.data.length : ℤ), f.data) := by
    apply hcodes.decodes
    intro n hn
    obtain rfl := Option.some.inj hn
    exact hle
  have hcall := edited_secret ht hne
  have hlt := f.fits
  rw [hdecode, unsigned_natCast (by omega)] at hcall
  exact storesExactly_of_call f.fits hcall List.take_length

/-- The 33 characters that are written for a secret that is too long decode to 20 bytes, and the
last of them is left over. -/
theorem cut_decodes {data : Bytes} {is : List ℕ} {rest : List Bool} {b : UInt8}
    (hlen : is.length = 33) (hbits : stream 5 is ++ rest = byteStream data)
    (hb : data[20]? = some b) (resSize : Option ℕ) (hroom : ∀ n, resSize = some n → 20 ≤ n) :
    ∃ out, out.length = 20 ∧ decodeLoop resSize (is.map symbol) 0 0 [] =
      if 8 ≤ b.toNat then (-1, out) else (20, out) := by
  obtain ⟨buf, got, out, hgot, hrun, hsrc⟩ :=
    @decodeLoop_symbols resSize is 0 0 [] [] _ (by omega) rfl (by
      intro n hn
      have hn := hroom n hn
      simp only [byteStream_nil, bits_zero, List.nil_append, stream_length, hlen]
      omega)
  simp only [byteStream_nil, bits_zero, List.nil_append] at hsrc
  have hcount := congrArg List.length hsrc
  simp only [List.length_append, byteStream_length, bits_length, stream_length, hlen] at hcount
  obtain rfl : got = 5 := by omega
  have hout : out.length = 20 := by omega
  have hlong : 20 < data.length := (List.getElem?_eq_some_iff.mp hb).1
  have hsplit : data = data.take 20 ++ b :: data.drop 21 := by
    have hget : data[20] = b := (List.getElem?_eq_some_iff.mp hb).2
    rw [← hget, ← List.drop_eq_getElem_cons, List.take_append_drop]
  rw [← hsrc, hsplit, byteStream_append, byteStream_cons, List.append_assoc] at hbits
  have htake : (data.take 20).length = 20 := by
    rw [List.length_take]
    omega
  obtain ⟨-, htail⟩ := List.append_inj hbits (by
    rw [byteStream_length, byteStream_length, hout, htake])
  rw [bits_append 5 3, List.append_assoc] at htail
  obtain ⟨hfive, -⟩ := List.append_inj htail (by rw [bits_length, bits_length])
  have hleft : buf % 2 ^ 5 = b.toNat >>> 3 := by
    have hlt := b.toNat_lt
    apply bits_inj (w := 5) (Nat.mod_lt _ (by decide))
    · rw [Nat.shiftRight_eq_div_pow]
      omega
    · rw [bits_mod (Nat.le_refl 5), hfive]
  refine ⟨out, hout, ?_⟩
  rw [List.append_nil] at hrun
  rw [hrun, Base32.decodeLoop, Nat.and_two_pow_sub_one_eq_mod, hleft,
    Nat.shiftRight_eq_div_pow, hout]
  by_cases h8 : 8 ≤ b.toNat
  · rw [if_pos h8, if_pos (by omega)]
  · rw [if_neg h8, if_neg (by omega)]
    rfl

theorem restores_longSecret (ht : f.type ∈ secretTypes)
    (hfind : dbFieldFind fields f.type = some f) {b : UInt8}
    (hb : f.data[maxSecretLen]? = some b) : Restores fields f ↔ 8 ≤ b.toNat := by
  have hlong : maxSecretLen < f.data.length := (List.getElem?_eq_some_iff.mp hb).1
  obtain ⟨is, rest, henc, hlen, hbits⟩ :=
    @base32Encode_cut f.data (base32EncodeSize maxSecretLen) (by
      have hlong : 20 < f.data.length := hlong
      have hsize : base32EncodeSize maxSecretLen = 33 := rfl
      omega)
  have hnul : 0 ∉ is.map symbol := by
    simp only [List.mem_map, not_exists, not_and]
    exact fun i _ => symbol_ne_zero i
  have hroom : (is.map symbol).length ≤ newBuf.length := by
    rw [List.length_map, hlen]
    decide
  have hdrop : newBuf.drop (is.map symbol).length = 0 :: List.replicate 31 0 := by
    rw [List.length_map, hlen]
    rfl
  have hcopy : copyBase32 newBuf (some f) = .ok (is.map symbol ++ 0 :: List.replicate 31 0) := by
    rw [copyBase32, henc, store_ok hroom, hdrop]
  rw [restores_iff hfind (presented_secret ht hcopy) rfl (by simp),
    CString.ofBuffer_append ⟨is.map symbol, hnul⟩]
  have hfits : (is.map symbol).length ≤ maxStringLen := by
    rw [List.length_map, hlen]
    decide
  have hne : (⟨is.map symbol, hnul⟩ : CString) ≠ .empty := by
    intro he
    have hz := congrArg (fun s => s.bytes.length) he
    simp only [List.length_map, hlen] at hz
    exact absurd hz (by decide)
  obtain ⟨out, hout, hsize⟩ := cut_decodes hlen hbits hb none (fun n h => nomatch h)
  obtain ⟨tmp, htmp, hdecode⟩ := cut_decodes hlen hbits hb (some maxSecretLen) (by
    intro n hn
    obtain rfl := Option.some.inj hn
    exact Nat.le_refl _)
  by_cases h8 : 8 ≤ b.toNat
  · refine iff_of_true (fun _ _ hv => ?_) h8
    have hinvalid : validateBase32 ⟨is.map symbol, hnul⟩ = 0 := by
      rw [validateBase32, base32DecodeSize, hsize, if_pos h8]
      rfl
    simp [uiEntryValid, hinvalid, hne] at hv
  · refine iff_of_false (fun hall => ?_) h8
    have hvalid : validateBase32 ⟨is.map symbol, hnul⟩ = 1 := by
      rw [validateBase32, base32DecodeSize, hsize, if_neg h8]
      rfl
    obtain ⟨object, hobject, -⟩ := (hall hfits hne (by simp [uiEntryValid, hvalid])).call
    rw [edited_secret ht hne, base32Decode, hdecode, if_neg h8] at hobject
    have hsame := (Edited.change.inj hobject).2
    have hval : unsigned 20 = 20 := by decide
    rw [hval] at hsame
    exact absurd hsame (Nat.ne_of_lt hlong)

/-! ## Counters -/

theorem bytes64_le64 {b : Bytes} (h : b.length = 8) : bytes64 (le64 b) = b := by
  have hshift : ∀ n k : ℕ, (UInt8.ofNat (n >>> k)).toNat = n / 2 ^ k % 256 := by
    intro n k
    rw [UInt8.toNat_ofNat', Nat.shiftRight_eq_div_pow]
  match b, h with
  | [b0, b1, b2, b3, b4, b5, b6, b7], _ =>
      have h0 := b0.toNat_lt
      have h1 := b1.toNat_lt
      have h2 := b2.toNat_lt
      have h3 := b3.toNat_lt
      have h4 := b4.toNat_lt
      have h5 := b5.toNat_lt
      have h6 := b6.toNat_lt
      have h7 := b7.toNat_lt
      have hn : (le64 [b0, b1, b2, b3, b4, b5, b6, b7]).toNat = b0.toNat + 256 * (b1.toNat +
          256 * (b2.toNat + 256 * (b3.toNat + 256 * (b4.toNat + 256 * (b5.toNat +
          256 * (b6.toNat + 256 * b7.toNat)))))) := by
        simp only [le64, List.foldr_cons, List.foldr_nil, UInt64.toNat_add, UInt64.toNat_mul,
          UInt64.toNat_ofNat', UInt64.toNat_ofNat]
        omega
      simp only [bytes64, hn, List.range_succ, List.range_zero, List.nil_append, List.cons_append,
        List.map_cons, List.map_nil, List.cons.injEq, ← UInt8.toNat_inj, hshift, and_true]
      refine ⟨?_, ?_, ?_, ?_, ?_, ?_, ?_, ?_⟩ <;> omega

theorem presented_counter (ht : f.type = ftHotpCounter) : presented f.type (some f) =
    (copyDecimal newBuf (some f)).map fun b =>
      (⟨⟨18, some validateDecimal⟩, uiEntryDecimalMaps, wiGeneralEntryOps⟩, b) := by
  rw [presented, ht, if_neg (by decide), if_neg (by decide), if_pos rfl]
  cases copyDecimal newBuf (some f) <;> rfl

theorem edited_counter {text : CString} {counter : UInt64} (hne : text ≠ .empty)
    (h : strtoull text = (counter, [])) :
    edited ftHotpCounter text = .change (bytes64 counter) 8 := by
  have hs : ftHotpCounter ∉ stringTypes := by decide
  have hb : ftHotpCounter ∉ secretTypes := by decide
  rw [edited, if_neg hne, if_neg hs, if_neg hb, if_pos rfl, h]

theorem restores_counter (ht : f.type = ftHotpCounter)
    (hfind : dbFieldFind fields f.type = some f) : Restores fields f ↔ f.data.length ≤ 8 := by
  by_cases hlong : 8 < f.data.length
  · refine iff_of_false (not_restores hfind ?_) (Nat.not_le_of_lt hlong)
    rw [presented_counter ht, copyDecimal, if_pos hlong]
    rfl
  · refine iff_of_true ?_ (Nat.le_of_not_lt hlong)
    by_cases heq : f.data.length = 8
    · have hv := (le64 f.data).toNat_lt
      have hroom : (printNumber (le64 f.data).toNat 0 10).length + 1 ≤ newBuf.length := by
        have hlen := @printNumber_length (le64 f.data).toNat 20 (by decide) (by omega)
        rw [newBuf_length, maxStringLen]
        omega
      obtain ⟨b, hstore, hmem, htext⟩ := @store_text newBuf ⟨_, printNumber_nulFree⟩ hroom
      have hp : presented f.type (some f) =
          .ok (⟨⟨18, some validateDecimal⟩, uiEntryDecimalMaps, wiGeneralEntryOps⟩, b) := by
        rw [presented_counter ht, copyDecimal, if_neg hlong, if_pos heq, hstore]
        rfl
      rw [restores_iff hfind hp rfl hmem, htext]
      intro _ hne _
      have hread := @strtoull_printNumber _ ⟨_, printNumber_nulFree⟩ hv rfl
      have hcall := edited_counter hne hread
      rw [UInt64.ofNat_toNat, bytes64_le64 heq, ← heq, ← ht] at hcall
      exact storesExactly_of_call f.fits hcall List.take_length
    · have hopen : uiFieldEditOpen f.type fields = .error .failed := by
        rw [uiFieldEditOpen, hfind, presented_counter ht, copyDecimal, if_neg hlong, if_neg heq]
        rfl
      rw [Restores, hopen]
      exact ⟨fun h => absurd (Except.error.inj h) (by decide), fun o h => nomatch h⟩

/-! ## All fields -/

/-- What the editor can present and take back: strings of at most 64 bytes with no NUL, secrets of
at most 20 bytes, and counters of at most 8. Strings that begin with NUL and secrets whose byte 20
is at least 8 are presented as texts that are not accepted. -/
def Restorable (f : DbField) : Prop :=
  if f.type ∈ stringTypes then
    f.data.length ≤ maxStringLen ∧ (0 ∉ f.data ∨ f.data.head? = some 0)
  else if f.type ∈ secretTypes then
    f.data.length ≤ maxSecretLen ∨ ∃ b, f.data[maxSecretLen]? = some b ∧ 8 ≤ b.toNat
  else f.data.length ≤ 8

/-- A field of the types that can be edited is stored again as it is exactly if it is one of
those. -/
theorem uiFieldEditOpen_restores (ht : f.type ∈ Accounts.editedTypes)
    (hfind : dbFieldFind fields f.type = some f) : Restores fields f ↔ Restorable f := by
  rw [Restorable]
  by_cases hs : f.type ∈ stringTypes
  · rw [if_pos hs]
    exact restores_string hs hfind
  · rw [if_neg hs]
    by_cases hb : f.type ∈ secretTypes
    · rw [if_pos hb]
      by_cases hle : f.data.length ≤ maxSecretLen
      · exact iff_of_true (restores_shortSecret hb hfind hle) (.inl hle)
      · have hget := List.getElem?_eq_getElem (Nat.lt_of_not_le hle)
        rw [restores_longSecret hb hfind hget, or_iff_right hle]
        constructor
        · exact fun h8 => ⟨_, hget, h8⟩
        · rintro ⟨b, hb, h8⟩
          rw [hget] at hb
          obtain rfl := Option.some.inj hb
          exact h8
    · rw [if_neg hb]
      have hc : f.type = ftHotpCounter := by
        simp only [stringTypes, secretTypes, Accounts.editedTypes, List.mem_cons,
          List.not_mem_nil, or_false] at ht hs hb
        tauto
      exact restores_counter hc hfind

def shortUser : DbField := .ofData ftUser (asciiBytes "me")

theorem uiFieldEditOpen_restores_user : Restores [shortUser] shortUser :=
  (uiFieldEditOpen_restores (by decide) rfl).mpr (by
    rw [Restorable, if_pos (by decide)]
    decide)

/-- A secret of 21 bytes is presented by its first 20 bytes and accepted. -/
theorem secret_notRestored : ∃ f : DbField, f.type ∈ Accounts.editedTypes ∧
    f.data.length = 21 ∧ dbFieldFind [f] f.type = some f ∧ ¬ Restores [f] f := by
  have hfind : dbFieldFind [DbField.ofData ftHotpSecret (List.replicate 21 0)] ftHotpSecret =
      some (DbField.ofData ftHotpSecret (List.replicate 21 0)) := by decide
  refine ⟨.ofData ftHotpSecret (List.replicate 21 0), by decide, by decide, hfind, fun h => ?_⟩
  have hb : (DbField.ofData ftHotpSecret (List.replicate 21 0)).data[maxSecretLen]? = some 0 := by
    decide
  exact absurd ((restores_longSecret (by decide) hfind hb).mp h) (by decide)

end Sunela.FieldEdit
