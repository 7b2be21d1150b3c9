import Mathlib.Data.List.Sort
import Sunela.Model.Bip39

/-! # Keys select the words that they stand for

The letters of a word stand for keys, and the keys of the input have to be the first of
them. -/

namespace Sunela.Bip39

/-- Words of the list have only small letters. -/
def Lowercase (w : CString) : Prop := ∀ c ∈ w.bytes, 97 ≤ c ∧ c ≤ 122

/-- The key of a letter. -/
def keyOf (c : UInt8) : UInt8 := keyChar ((letterSet c).getD 0)

theorem letterSet_fin : ∀ n : Fin 26, ∃ k : Fin 10,
    letterSet (UInt8.ofNat (97 + n)) = some k.val ∧
      ∀ j : Fin 10, strchr (bip39Sets.getD j []) (UInt8.ofNat (97 + n)) = decide (j = k) := by
  decide +kernel

/-- Each small letter is in one of the sets. -/
theorem letterSet_lowercase {c : UInt8} (h : 97 ≤ c ∧ c ≤ 122) :
    ∃ k : Fin 10, letterSet c = some k.val ∧
      ∀ j : Fin 10, strchr (bip39Sets.getD j []) c = decide (j = k) := by
  have hlow : 97 ≤ c.toNat := UInt8.le_iff_toNat_le.mp h.1
  have hhigh : c.toNat ≤ 122 := UInt8.le_iff_toNat_le.mp h.2
  have hf := letterSet_fin ⟨c.toNat - 97, by omega⟩
  rwa [show 97 + (c.toNat - 97) = c.toNat by omega, UInt8.ofNat_toNat] at hf

theorem isKey_fin : ∀ k : Fin 10, isKey (keyChar k) = true ∧ (keyChar k).toNat = 48 + k := by
  decide +kernel

theorem exists_of_isKey {t : UInt8} (h : isKey t = true) : ∃ k : Fin 10, t = keyChar k := by
  simp only [isKey, Bool.and_eq_true, decide_eq_true_eq] at h
  have hlow : 48 ≤ t.toNat := UInt8.le_iff_toNat_le.mp h.1
  have hhigh : t.toNat ≤ 57 := UInt8.le_iff_toNat_le.mp h.2
  refine ⟨⟨t.toNat - 48, by omega⟩, ?_⟩
  rw [← UInt8.toNat_inj, (isKey_fin _).2]
  simp only
  omega

theorem keyChar_inj {j k : Fin 10} (h : keyChar j = keyChar k) : j = k := by
  have hn := congrArg UInt8.toNat h
  rw [(isKey_fin j).2, (isKey_fin k).2] at hn
  exact Fin.ext (by omega)

/-- A letter is in the set of a key if it stands for it. -/
theorem strchr_key {c t : UInt8} (hc : 97 ≤ c ∧ c ≤ 122) (ht : isKey t = true) :
    strchr (bip39Sets.getD (t.toNat - 48) []) c = decide (keyOf c = t) := by
  obtain ⟨k, hk, hset⟩ := letterSet_lowercase hc
  obtain ⟨j, rfl⟩ := exists_of_isKey ht
  have hj : (keyChar j).toNat - 48 = j.val := by
    rw [(isKey_fin j).2]
    omega
  rw [hj, hset j, keyOf, hk, Option.getD_some]
  by_cases h : j = k
  · simp [h]
  · have hne : keyChar k ≠ keyChar j := fun he => h (keyChar_inj he).symm
    simp [h, hne]

/-! ## Words -/

/-- The keys of a word are what it is converted to. -/
theorem setsLoop_lowercase {w : Bytes} (h : ∀ c ∈ w, 97 ≤ c ∧ c ≤ 122) :
    setsLoop w w.length = some (w.map keyOf) := by
  induction w with
  | nil => rfl
  | cons c w ih =>
      obtain ⟨k, hk, -⟩ := letterSet_lowercase (h c (by simp))
      rw [List.length_cons, setsLoop, hk, ih fun x hx => h x (by simp [hx]), List.map_cons, keyOf,
        hk]
      rfl

theorem matchKeys_eq {s w : Bytes} (hs : ∀ t ∈ s, isKey t = true)
    (hw : ∀ c ∈ w, 97 ≤ c ∧ c ≤ 122) :
    matchKeys s w = some (if s <+: w.map keyOf then some (w.drop s.length) else none) := by
  induction s generalizing w with
  | nil => simp [matchKeys]
  | cons t s ih =>
      have ht : isKey t = true := hs t (by simp)
      cases w with
      | nil => simp [matchKeys, ht]
      | cons c w =>
          have htail := @ih w (fun x hx => hs x (by simp [hx])) (fun x hx => hw x (by simp [hx]))
          rw [matchKeys, ht, strchr_key (hw c (by simp)) ht]
          by_cases hk : keyOf c = t
          · simp [hk, htail, List.cons_prefix_cons]
          · have hne : ¬ t = keyOf c := fun he => hk he.symm
            simp [hk, hne, List.cons_prefix_cons]

example : matchKeys (asciiBytes "01") (asciiBytes "act") = some (some (asciiBytes "t")) := by
  decide +kernel

/-- What a word adds to the matches. -/
def matched (s : Bytes) (m : CString × ℕ) : Option (ℕ × Bytes) :=
  if s <+: m.1.bytes.map keyOf then some (m.2, m.1.bytes.drop s.length) else none

theorem matchWords_eq {s : CString} {words : List CString} (i : ℕ)
    (hs : ∀ t ∈ s.bytes, isKey t = true) (hw : ∀ w ∈ words, Lowercase w) :
    matchWords s i words = some ((words.zipIdx i).filterMap (matched s.bytes)) := by
  induction words generalizing i with
  | nil => rfl
  | cons w words ih =>
      rw [matchWords, matchKeys_eq hs (hw w (by simp)), List.zipIdx_cons, List.filterMap_cons,
        matched]
      by_cases hp : s.bytes <+: w.bytes.map keyOf
      · simp [hp, ih (i + 1) fun x hx => hw x (by simp [hx])]
      · simp [hp, ih (i + 1) fun x hx => hw x (by simp [hx])]

theorem mem_matched {s : Bytes} {words : List CString} {i : ℕ} {rest : Bytes} :
    (i, rest) ∈ (words.zipIdx).filterMap (matched s) ↔
      ∃ w, words[i]? = some w ∧ s <+: w.bytes.map keyOf ∧ rest = w.bytes.drop s.length := by
  simp only [List.mem_filterMap, matched, Prod.exists]
  constructor
  · rintro ⟨w, j, hm, hj⟩
    split at hj
    · next hp =>
        obtain ⟨rfl, rfl⟩ := Prod.mk.inj (Option.some.inj hj)
        exact ⟨w, List.mem_zipIdx_iff_getElem?.mp hm, hp, rfl⟩
    · cases hj
  · rintro ⟨w, hi, hp, rfl⟩
    exact ⟨w, i, List.mem_zipIdx_iff_getElem?.mpr hi, by simp [hp]⟩

theorem matched_ascending (s : Bytes) (words : List CString) :
    (((words.zipIdx).filterMap (matched s)).map Prod.fst).Pairwise (· < ·) := by
  have hindex : (words.zipIdx).Pairwise fun a b => a.2 < b.2 := by
    rw [← List.pairwise_map, List.zipIdx_map_snd]
    exact List.pairwise_lt_range'
  rw [List.pairwise_map]
  apply hindex.filterMap
  intro a a' hlt b hb b' hb'
  simp only [matched] at hb hb'
  split at hb
  · split at hb'
    · obtain rfl := Option.some.inj hb
      obtain rfl := Option.some.inj hb'
      exact hlt
    · cases hb'
  · cases hb

/-! ## Next keys -/

theorem nextKeys_ascending (found : List (ℕ × Bytes)) : (nextKeys found).Pairwise (· < ·) := by
  have hall : ((List.range 10).map keyChar).Pairwise (· < ·) := by decide +kernel
  exact hall.sublist (List.filter_sublist.map keyChar)

theorem nextKeys_length (found : List (ℕ × Bytes)) : (nextKeys found).length ≤ 10 := by
  rw [nextKeys, List.length_map]
  exact List.length_filter_le _ _

theorem mem_nextKeys {found : List (ℕ × Bytes)} {k : Fin 10} :
    keyChar k ∈ nextKeys found ↔
      ∃ i c rest, (i, c :: rest) ∈ found ∧ letterSet c = some k.val := by
  have hset : keyChar k ∈ nextKeys found ↔ nextSet found k = true := by
    simp only [nextKeys, List.mem_map, List.mem_filter, List.mem_range]
    constructor
    · rintro ⟨j, ⟨hj, hset⟩, he⟩
      obtain rfl : j = k.val := congrArg Fin.val (@keyChar_inj ⟨j, hj⟩ k he)
      exact hset
    · exact fun h => ⟨k.val, ⟨k.isLt, h⟩, rfl⟩
  rw [hset, nextSet, List.any_eq_true]
  constructor
  · rintro ⟨⟨i, rest⟩, hm, he⟩
    cases rest with
    | nil => simp at he
    | cons c rest => exact ⟨i, c, rest, hm, of_decide_eq_true he⟩
  · rintro ⟨i, c, rest, hm, he⟩
    exact ⟨(i, c :: rest), hm, decide_eq_true he⟩

theorem isKey_of_mem {found : List (ℕ × Bytes)} {t : UInt8} (h : t ∈ nextKeys found) :
    isKey t = true := by
  obtain ⟨k, hk, rfl⟩ := List.mem_map.mp h
  exact (isKey_fin ⟨k, List.mem_range.mp (List.mem_of_mem_filter hk)⟩).1

/-- A word matches one key more if its next letter stands for that key. -/
theorem prefix_append_iff {s w : Bytes} {k : Fin 10} (hw : ∀ c ∈ w, 97 ≤ c ∧ c ≤ 122) :
    s ++ [keyChar k] <+: w.map keyOf ↔
      s <+: w.map keyOf ∧ ∃ c rest, w.drop s.length = c :: rest ∧ letterSet c = some k.val := by
  induction s generalizing w with
  | nil =>
      cases w with
      | nil => simp
      | cons c w =>
          obtain ⟨j, hj, -⟩ := letterSet_lowercase (hw c (by simp))
          have hkey : keyOf c = keyChar j := by rw [keyOf, hj, Option.getD_some]
          have heq : keyChar k = keyChar j ↔ (some j.val : Option ℕ) = some k.val := by
            rw [Option.some_inj, Fin.val_inj]
            exact ⟨fun he => (keyChar_inj he).symm, fun he => congrArg (keyChar ·.val) he.symm⟩
          simp [List.cons_prefix_cons, hkey, heq, hj]
  | cons t s ih =>
      cases w with
      | nil => simp
      | cons c w =>
          have htail := @ih w fun x hx => hw x (by simp [hx])
          simp only [List.cons_append, List.map_cons, List.cons_prefix_cons, List.length_cons,
            List.drop_succ_cons, htail, and_assoc]

/-- A key is next if one more word matches with it than would without. -/
theorem mem_nextKeys_matched {s : Bytes} {words : List CString} {k : Fin 10}
    (hw : ∀ w ∈ words, Lowercase w) :
    keyChar k ∈ nextKeys ((words.zipIdx).filterMap (matched s)) ↔
      (words.zipIdx).filterMap (matched (s ++ [keyChar k])) ≠ [] := by
  rw [mem_nextKeys]
  constructor
  · rintro ⟨i, c, rest, hm, hset⟩
    obtain ⟨w, hi, hp, hrest⟩ := mem_matched.mp hm
    have hword : Lowercase w := hw w (List.mem_of_getElem? hi)
    exact List.ne_nil_of_mem (mem_matched.mpr
      ⟨w, hi, (prefix_append_iff hword).mpr ⟨hp, c, rest, hrest.symm, hset⟩, rfl⟩)
  · intro hne
    obtain ⟨⟨i, rest⟩, hm⟩ := List.exists_mem_of_ne_nil _ hne
    obtain ⟨w, hi, hp, -⟩ := mem_matched.mp hm
    have hword : Lowercase w := hw w (List.mem_of_getElem? hi)
    obtain ⟨hp, c, rest, hrest, hset⟩ := (prefix_append_iff hword).mp hp
    exact ⟨i, c, rest, mem_matched.mpr ⟨w, hi, hp, hrest.symm⟩, hset⟩

/-- The matches are the words whose keys begin with the input, and the next keys are those with
which there still are matches. -/
theorem bip39Match_exact {words : List CString} (hw : ∀ w ∈ words, Lowercase w) {s : CString}
    (hs : ∀ t ∈ s.bytes, isKey t = true) {nextSize : ℕ} (hsize : 10 < nextSize) :
    ∃ ms next, bip39Match words s (some nextSize) = some (ms, some next) ∧
      bip39Match words s none = some (ms, none) ∧
      ms.Pairwise (· < ·) ∧
      (∀ i, i ∈ ms ↔ ∃ w image, words[i]? = some w ∧
        bip39WordToSets w w.bytes.length = some image ∧ s.bytes <+: image) ∧
      next.Pairwise (· < ·) ∧ (∀ t ∈ next, isKey t = true) ∧
      ∀ k : Fin 10, ∀ s' : CString, s'.bytes = s.bytes ++ [keyChar k] →
        (keyChar k ∈ next ↔ ∃ ms', bip39Match words s' none = some (ms', none) ∧ ms' ≠ []) := by
  have hfound := matchWords_eq 0 hs hw
  refine ⟨((words.zipIdx).filterMap (matched s.bytes)).map Prod.fst,
    nextKeys ((words.zipIdx).filterMap (matched s.bytes)), ?_, ?_,
    matched_ascending s.bytes words, ?_, nextKeys_ascending _, fun t ht => isKey_of_mem ht, ?_⟩
  · have hlen := nextKeys_length ((words.zipIdx).filterMap (matched s.bytes))
    simp only [bip39Match, hfound, Option.bind_eq_bind, Option.bind_some]
    rw [if_pos (by omega)]
    rfl
  · simp only [bip39Match, hfound, Option.bind_eq_bind, Option.bind_some]
    rfl
  · intro i
    simp only [List.mem_map, Prod.exists, exists_and_right, exists_eq_right, mem_matched]
    constructor
    · rintro ⟨rest, w, hi, hp, -⟩
      exact ⟨w, _, hi, setsLoop_lowercase (hw w (List.mem_of_getElem? hi)), hp⟩
    · rintro ⟨w, image, hi, himage, hp⟩
      rw [bip39WordToSets, setsLoop_lowercase (hw w (List.mem_of_getElem? hi))] at himage
      obtain rfl := Option.some.inj himage
      exact ⟨_, w, hi, hp, rfl⟩
  · intro k s' hs'
    have hkeys : ∀ t ∈ s'.bytes, isKey t = true := by
      rw [hs']
      intro t ht
      rcases List.mem_append.mp ht with ht | ht
      · exact hs t ht
      · rw [List.mem_singleton.mp ht]
        exact (isKey_fin k).1
    simp only [bip39Match, matchWords_eq 0 hkeys hw, Option.bind_eq_bind, Option.bind_some]
    rw [mem_nextKeys_matched hw, ← hs']
    constructor
    · exact fun hne => ⟨_, rfl, by simpa using hne⟩
    · rintro ⟨ms', hms, hne⟩
      obtain ⟨rfl, -⟩ := Prod.mk.inj (Option.some.inj hms)
      exact fun hnil => hne (by rw [hnil]; rfl)

theorem bip39Match_exact_act :
    ∃ ms next, bip39Match [.ofBuffer (asciiBytes "act"), .ofBuffer (asciiBytes "zoo")]
      (.ofBuffer (asciiBytes "0")) (some 11) = some (ms, some next) := by
  obtain ⟨ms, next, h, -⟩ := @bip39Match_exact
    [.ofBuffer (asciiBytes "act"), .ofBuffer (asciiBytes "zoo")]
    (by simp only [Lowercase]; decide +kernel) (.ofBuffer (asciiBytes "0")) (by decide +kernel) 11
    (by decide)
  exact ⟨ms, next, h⟩

example : bip39Match [.ofBuffer (asciiBytes "act"), .ofBuffer (asciiBytes "zoo")]
    (.ofBuffer (asciiBytes "9")) (some 11) = some ([1], some [53]) := by
  decide +kernel

end Sunela.Bip39
