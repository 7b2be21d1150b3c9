import Sunela.Model.Accenc
import Sunela.Verification.Open.Records

/-! # Encoded accounts are read back

The encoder on the host counts the characters of a text and the decoder its bytes, so they
agree on the records without characters beyond ASCII, and on no others. -/

namespace Sunela.Accenc

open Fields Entry Database

/-! ## What an account says -/

/-- The type of a key in `enum field_type`. -/
def Key.type : Key → UInt8
  | .id => ftId
  | .prev => ftPrev
  | .user => ftUser
  | .email => ftEmail
  | .pw => ftPw
  | .hotpSecret => ftHotpSecret
  | .hotpCounter => ftHotpCounter
  | .totpSecret => ftTotpSecret
  | .comment => ftComment
  | .pw2 => ftPw2
  | .dir => ftDir

/-- The bytes a value stands for. -/
def Json.bytes : Key → Json → Option Bytes
  | .id, .list l => some ([0].intercalate (l.map utf8))
  | .hotpSecret, .str s => b32decode s
  | .totpSecret, .str s => b32decode s
  | .hotpCounter, v => do
      let n ← int v
      if 0 ≤ n ∧ n < 2 ^ 64 then some (littleEndian 8 n.toNat) else none
  | _, .str s => some (utf8 s)
  | _, _ => none

/-- The text in a value that is not decoded. -/
def Json.text : Key → Json → Str
  | .id, .list l => ['\x00'].intercalate l
  | .hotpSecret, _ => []
  | .hotpCounter, _ => []
  | .totpSecret, _ => []
  | _, .str s => s
  | _, _ => []

/-- The fields of some keys. -/
def fieldsOf (value : Key → Option Json) (ks : List Key) : List DbField :=
  ks.filterMap fun key =>
    ((value key).bind fun v => v.bytes key).map (DbField.ofData key.type)

def Account.fields (e : Account) : List DbField := fieldsOf e.value keys

/-- The names from the root to the entry. -/
def Account.names (e : Account) : List Str :=
  match e.value .id with
  | some (.str s) => [s]
  | some (.list l) => l
  | _ => []

/-- Each value has an encoding of at most 255 bytes. -/
def Fits (value : Key → Option Json) : Prop :=
  ∀ key v, value key = some v → ∃ d, v.bytes key = some d ∧ d.length ≤ 255

def Ascii (s : Str) : Prop := ∀ c ∈ s, c.toNat < 128

instance (s : Str) : Decidable (Ascii s) := List.decidableBAll _ s

/-- All texts are ASCII, and the entry has a path. -/
structure Plain (e : Account) : Prop where
  ascii : ∀ key v, e.value key = some v → Ascii (v.text key)
  named : e.names ≠ []
  nulFree : ∀ s ∈ e.names, '\x00' ∉ s

/-- The database has the entry of one record, and above it nothing but directories. -/
structure HoldsOnly (db : Db) (r : Record) : Prop where
  data : db.stats.data = 1
  distinct : db.entries.Distinct DbEntry.name
  look : ∀ q, q ≠ [] → look db.entries q =
    if q = r.path then some r.shown else if q <+: r.path then some (0, 0, []) else none

/-- The decoder finds the entry of the account, with its path and its fields, in a block that
is filled up with `k` zeros. -/
def Reads (e : Account) (b : Bytes) (block : ℕ) (seq : UInt16) (k : ℕ) : Prop :=
  ∃ db r, processPayload dbOpenEmpty block seq (b ++ List.replicate k 0) = some db ∧
    HoldsOnly db r ∧ r.block = block ∧ r.seq = seq ∧
    r.path.map CString.bytes = e.names.map utf8 ∧ r.fields = e.fields

/-! ## Texts and their bytes -/

theorem utf8Size_eq_one_iff (c : Char) : c.utf8Size = 1 ↔ c.toNat < 128 := by
  rw [Char.utf8Size_eq_one_iff, UInt32.le_iff_toNat_le]
  exact Nat.lt_succ_iff.symm

theorem utf8_cons (c : Char) (s : Str) : utf8 (c :: s) = String.utf8EncodeChar c ++ utf8 s :=
  List.flatMap_cons

theorem utf8_append (s t : Str) : utf8 (s ++ t) = utf8 s ++ utf8 t := List.flatMap_append

theorem utf8_length (s : Str) : s.length ≤ (utf8 s).length := by
  induction s with
  | nil => simp
  | cons c s ih =>
      have hc := c.utf8Size_pos
      rw [utf8_cons, List.length_append, String.length_utf8EncodeChar, List.length_cons]
      omega

/-- The characters are as many as the bytes just if there is nothing but ASCII. -/
theorem utf8_length_eq_iff (s : Str) : s.length = (utf8 s).length ↔ Ascii s := by
  induction s with
  | nil => simp [Ascii, utf8]
  | cons c s ih =>
      have hc := c.utf8Size_pos
      have hs := utf8_length s
      have hone := utf8Size_eq_one_iff c
      have hcons : Ascii (c :: s) ↔ c.toNat < 128 ∧ Ascii s := by simp [Ascii]
      rw [hcons, ← hone, ← ih, utf8_cons, List.length_append, String.length_utf8EncodeChar,
        List.length_cons]
      omega

theorem utf8_intercalate (l : List Str) :
    utf8 (['\x00'].intercalate l) = [0].intercalate (l.map utf8) := by
  induction l with
  | nil => rfl
  | cons s l ih =>
      cases l with
      | nil => simp
      | cons t l =>
          simp only [List.map_cons, List.intercalate_cons_cons] at ih ⊢
          rw [utf8_append, utf8_append, ih]
          rfl

theorem ascii_intercalate {l : List Str} (h : Ascii (['\x00'].intercalate l)) :
    ∀ s ∈ l, Ascii s := by
  induction l with
  | nil => simp
  | cons s l ih =>
      cases l with
      | nil => simpa using h
      | cons t l =>
          rw [List.intercalate_cons_cons] at h
          intro u hu
          rcases List.mem_cons.mp hu with rfl | hu
          · exact fun c hc => h c (by simp [hc])
          · exact ih (fun c hc => h c (List.mem_append_right _ hc)) u hu

theorem nul_mem_utf8 {s : Str} (h : '\x00' ∈ s) : (0 : UInt8) ∈ utf8 s :=
  List.mem_flatMap.mpr ⟨_, h, by decide⟩

theorem nul_notMem_utf8 {s : Str} (ha : Ascii s) (h : '\x00' ∉ s) : (0 : UInt8) ∉ utf8 s := by
  intro h0
  obtain ⟨c, hc, hb⟩ := List.mem_flatMap.mp h0
  have hlt := ha c hc
  rw [String.utf8EncodeChar_eq_singleton ((utf8Size_eq_one_iff c).mpr hlt),
    List.mem_singleton] at hb
  have hz : c.toNat = 0 := by
    have hn : 0 = c.toNat % 256 := congrArg UInt8.toNat hb
    omega
  have hc0 : c = '\x00' := by
    apply Char.ext
    apply UInt32.toNat_inj.mp
    exact hz
  exact h (hc0 ▸ hc)

/-! ## One value -/

/-- The encoder writes the bytes of a value, and as their number that of the characters in
its text. -/
theorem encode_eq {key : Key} {code : ℕ} {v : Json} {d : Bytes} (hcode : code < 256)
    (h : v.bytes key = some d) (hd : d.length ≤ 255) :
    ∃ n, n ≤ d.length ∧ (n = d.length ↔ Ascii (v.text key)) ∧
      encode key code v = some (UInt8.ofNat code :: UInt8.ofNat n :: d) := by
  have htext : ∀ s, utf8 s = d → ∃ n, n ≤ d.length ∧ (n = d.length ↔ Ascii s) ∧
      encodeText code s = some (UInt8.ofNat code :: UInt8.ofNat n :: d) := by
    rintro s rfl
    have hle := utf8_length s
    refine ⟨s.length, hle, utf8_length_eq_iff s, ?_⟩
    simp [encodeText, packBB, hcode, show s.length < 256 by omega]
  have hpack : packBB code d.length = some [UInt8.ofNat code, UInt8.ofNat d.length] := by
    simp [packBB, hcode, show d.length < 256 by omega]
  have hnil : d.length = d.length ↔ Ascii [] := by simp [Ascii]
  have hsecret : ∀ s, b32decode s = some d → encodeSecret code s =
      some (UInt8.ofNat code :: UInt8.ofNat d.length :: d) := by
    intro s hs
    simp [encodeSecret, hs, hpack]
  cases key with
  | hotpSecret =>
      cases v with
      | str s => exact ⟨_, Nat.le_refl _, hnil, hsecret s h⟩
      | num n => exact absurd h (by simp [Json.bytes])
      | list l => exact absurd h (by simp [Json.bytes])
  | totpSecret =>
      cases v with
      | str s => exact ⟨_, Nat.le_refl _, hnil, hsecret s h⟩
      | num n => exact absurd h (by simp [Json.bytes])
      | list l => exact absurd h (by simp [Json.bytes])
  | hotpCounter =>
      obtain ⟨n, hn, h⟩ := Option.bind_eq_some_iff.mp h
      split_ifs at h with hr
      obtain rfl := Option.some.inj h
      have hlen : (littleEndian 8 n.toNat).length = 8 := by simp [littleEndian]
      rw [hlen] at hpack
      refine ⟨_, Nat.le_refl _, hnil, ?_⟩
      have hneg : ¬ (n < 0 ∨ 2 ^ 64 ≤ n) := by omega
      simp only [encode, hn, hpack, hlen, hneg, Option.bind_eq_bind, Option.bind_some, if_false]
      rfl
  | id =>
      cases v with
      | str s => exact htext s (Option.some.inj h)
      | num n => exact absurd h (by simp [Json.bytes])
      | list l => exact htext _ ((utf8_intercalate l).trans (Option.some.inj h))
  | prev | user | email | pw | comment | pw2 | dir =>
      cases v with
      | str s => exact htext s (Option.some.inj h)
      | num n => exact absurd h (by simp [Json.bytes])
      | list l => exact absurd h (by simp [Json.bytes])

/-! ## All values -/

theorem Key.type_inj {a b : Key} (h : a.type = b.type) : a = b := by
  revert h
  cases a <;> cases b <;> decide

/-- The numbering of the keys is that of the field types. -/
theorem keys_numbered : keys.zipIdx 1 = keys.map fun key => (key, key.type.toNat) := by decide

theorem fieldsOf_cons (value : Key → Option Json) (key : Key) (ks : List Key) :
    fieldsOf value (key :: ks) =
      (((value key).bind fun v => v.bytes key).map (DbField.ofData key.type)).toList ++
        fieldsOf value ks := by
  rw [fieldsOf, List.filterMap_cons]
  cases ((value key).bind fun v => v.bytes key).map (DbField.ofData key.type) <;> rfl

theorem mem_fieldsOf {value : Key → Option Json} {ks : List Key} {f : DbField} :
    f ∈ fieldsOf value ks ↔ ∃ key ∈ ks, ∃ v d, value key = some v ∧ v.bytes key = some d ∧
      DbField.ofData key.type d = f := by
  simp only [fieldsOf, List.mem_filterMap, Option.map_eq_some_iff, Option.bind_eq_some_iff]
  constructor
  · rintro ⟨key, hk, d, ⟨v, hv, hd⟩, hf⟩
    exact ⟨key, hk, v, d, hv, hd, hf⟩
  · rintro ⟨key, hk, v, d, hv, hd, hf⟩
    exact ⟨key, hk, d, ⟨v, hv, hd⟩, hf⟩

section Keys

variable {value : Key → Option Json} (hfit : Fits value)
include hfit

/-- With all texts in ASCII, the record is that of the fields. -/
theorem encodeKeys_ascii (ha : ∀ key v, value key = some v → Ascii (v.text key)) (i : ℕ)
    (ks : List Key) (hnum : ks.zipIdx i = ks.map fun key => (key, key.type.toNat)) :
    encodeKeys value i ks = some ((fieldsOf value ks).flatMap encodeField) := by
  induction ks generalizing i with
  | nil => rfl
  | cons key ks ih =>
      simp only [List.zipIdx_cons, List.map_cons, List.cons.injEq, Prod.mk.injEq, true_and]
        at hnum
      obtain ⟨rfl, hrest⟩ := hnum
      rw [fieldsOf_cons, List.flatMap_append]
      simp only [encodeKeys, ih _ hrest]
      cases hv : value key with
      | none => simp
      | some v =>
          obtain ⟨d, hd, hlen⟩ := hfit key v hv
          obtain ⟨n, -, hn, henc⟩ := encode_eq key.type.toNat_lt hd hlen
          obtain rfl := hn.mpr (ha key v hv)
          simp [henc, hd, encodeField, DbField.ofData_data key.type (show d.length < 256 by omega)]

omit hfit in
private theorem tlvItem_take {key : Key} {d : Bytes} {n : ℕ} (hn : n ≤ d.length)
    (hd : d.length ≤ 255) (rest : Bytes) :
    tlvItem (key.type :: UInt8.ofNat n :: (d ++ rest)) =
      some (.ofData key.type (d.take n), d.drop n ++ rest) := by
  have hne : key.type ≠ ftEnd := by cases key <;> decide
  have hmod : (UInt8.ofNat n).toNat = n := by
    simpa using Nat.mod_eq_of_lt (show n < 256 by omega)
  simp only [tlvItem, hne, if_false, hmod, List.length_append]
  rw [if_neg (by omega), List.take_append_of_le_length hn, List.drop_append_of_le_length hn]

/-- There is a record in any case, and a text with other characters is cut short in it. -/
theorem encodeKeys_other (i : ℕ) (ks : List Key)
    (hnum : ks.zipIdx i = ks.map fun key => (key, key.type.toNat)) :
    ∃ b, encodeKeys value i ks = some b ∧
      ∀ key ∈ ks, ∀ v, value key = some v → ¬ Ascii (v.text key) →
        ∀ tail fuel, (b ++ tail).length ≤ fuel →
          ∃ f ∈ tlvItems fuel (b ++ tail), ∃ key' v d, value key' = some v ∧
            v.bytes key' = some d ∧ f.type = key'.type ∧ f.data.length < d.length := by
  induction ks generalizing i with
  | nil => exact ⟨[], rfl, by simp⟩
  | cons key ks ih =>
      simp only [List.zipIdx_cons, List.map_cons, List.cons.injEq, Prod.mk.injEq, true_and]
        at hnum
      obtain ⟨rfl, hrest⟩ := hnum
      obtain ⟨b, hb, hshort⟩ := ih _ hrest
      simp only [encodeKeys, hb]
      cases hv : value key with
      | none =>
          refine ⟨b, by simp, ?_⟩
          intro k hk v hkv
          rcases List.mem_cons.mp hk with rfl | hk
          · rw [hv] at hkv
            exact absurd hkv (by simp)
          · exact hshort k hk v hkv
      | some v =>
          obtain ⟨d, hd, hlen⟩ := hfit key v hv
          obtain ⟨n, hle, hn, henc⟩ := encode_eq key.type.toNat_lt hd hlen
          refine ⟨key.type :: UInt8.ofNat n :: (d ++ b), by simp [henc], ?_⟩
          intro k hk w hkw hna tail fuel hfuel
          cases fuel with
          | zero => simp at hfuel
          | succ fuel =>
              simp only [List.cons_append, List.append_assoc, tlvItems, tlvItem_take hle hlen]
              by_cases ha : Ascii (v.text key)
              · have hk : k ∈ ks := by
                  rcases List.mem_cons.mp hk with rfl | hk
                  · rw [hv] at hkw
                    obtain rfl := Option.some.inj hkw
                    exact absurd ha hna
                  · exact hk
                rw [hn.mpr ha, List.drop_length, List.nil_append]
                obtain ⟨f, hf, hrest⟩ := hshort k hk w hkw hna tail fuel
                  (by simp only [List.length_cons, List.length_append] at hfuel ⊢; omega)
                exact ⟨f, List.mem_cons_of_mem _ hf, hrest⟩
              · refine ⟨_, List.mem_cons_self, key, v, d, hv, hd, rfl, ?_⟩
                have hne : n ≠ d.length := fun he => ha (hn.mp he)
                rw [DbField.ofData_data _ (by rw [List.length_take]; omega), List.length_take]
                omega

end Keys

/-! ## The path -/

/-- The names make a path if they have no NUL. -/
theorem exists_path {l : List Str} (ha : ∀ s ∈ l, Ascii s) (h : ∀ s ∈ l, '\x00' ∉ s) :
    ∃ path : Path, path.map CString.bytes = l.map utf8 := by
  induction l with
  | nil => exact ⟨[], rfl⟩
  | cons s l ih =>
      obtain ⟨path, hp⟩ := ih (fun t ht => ha t (by simp [ht])) fun t ht => h t (by simp [ht])
      refine ⟨⟨utf8 s, nul_notMem_utf8 (ha s (by simp)) (h s (by simp))⟩ :: path, ?_⟩
      simp [hp]

theorem joinPath_eq_intercalate (path : Path) :
    joinPath path = [0].intercalate (path.map CString.bytes) := by
  induction path with
  | nil => rfl
  | cons s path ih =>
      cases path with
      | nil => simp [joinPath]
      | cons t path =>
          simp only [List.map_cons, List.intercalate_cons_cons, joinPath] at ih ⊢
          rw [ih]
          simp

/-- The identifier is that of the path. -/
theorem Account.id_bytes {e : Account} (h : Fits e.value) :
    ∃ v, e.value .id = some v ∧ v.bytes .id = some ([0].intercalate (e.names.map utf8)) ∧
      v.text .id = ['\x00'].intercalate e.names := by
  obtain ⟨v, hv⟩ := Option.isSome_iff_exists.mp e.named
  obtain ⟨d, hd, -⟩ := h .id v hv
  refine ⟨v, hv, ?_⟩
  cases v with
  | str s => simp [Account.names, hv, Json.bytes, Json.text]
  | num n => exact absurd hd (by simp [Json.bytes])
  | list l => simp [Account.names, hv, Json.bytes, Json.text]

theorem Plain.ascii_names {e : Account} (hfit : Fits e.value)
    (h : ∀ key v, e.value key = some v → Ascii (v.text key)) : ∀ s ∈ e.names, Ascii s := by
  obtain ⟨v, hv, -, htext⟩ := e.id_bytes hfit
  exact ascii_intercalate (htext ▸ h .id v hv)

/-- The fields of the account make a record. -/
theorem Account.fields_storable {e : Account} (hfit : Fits e.value) :
    Storable e.fields (splitPath ([0].intercalate (e.names.map utf8))) := by
  obtain ⟨v, hv, hid, -⟩ := e.id_bytes hfit
  refine ⟨?_, ?_⟩
  · have hle : keys.Pairwise fun a b => a.type ≤ b.type := by decide
    refine List.Pairwise.filterMap _ ?_ hle
    intro a b hab f hf g hg
    obtain ⟨d, -, rfl⟩ := Option.map_eq_some_iff.mp hf
    obtain ⟨d', -, rfl⟩ := Option.map_eq_some_iff.mp hg
    exact hab
  · obtain ⟨d, hd, hlen⟩ := hfit .id v hv
    obtain rfl := Option.some.inj (hid.symm.trans hd)
    refine ⟨DbField.ofData ftId ([0].intercalate (e.names.map utf8)), fieldsOf e.value keys.tail,
      ?_, rfl, ?_⟩
    · simp [Account.fields, keys, fieldsOf_cons _ .id, hv, hid, Key.type]
    · rw [DbField.ofData_data _ (by omega)]

/-! ## The record in the database -/

theorem parseRecord_fields {block : ℕ} {seq : UInt16} {payload : Bytes} {r : Record}
    (h : parseRecord block seq payload = some r) :
    r.fields = sortFields (tlvItems payload.length payload) := by
  unfold parseRecord at h
  split at h
  · exact absurd h (by simp)
  · split_ifs at h
    obtain rfl := Option.some.inj h
    rfl

theorem processPayload_holds {block : ℕ} {seq : UInt16} {payload : Bytes} {r : Record}
    (h : parseRecord block seq payload = some r) :
    ∃ db, processPayload dbOpenEmpty block seq payload = some db ∧ HoldsOnly db r := by
  have hpath := (parseRecord_spec h).2.2
  obtain ⟨G, hG, hlook⟩ := placeRecord_look (F := .nil) (by simp [Sound, Forest.entries]) r 0 hpath
  refine ⟨_, by simp [processPayload, h, dbOpenEmpty, hG]; rfl, ?_⟩
  have hdistinct := placeRecord_distinct (F := .nil) trivial hG
  refine ⟨by simp [Db.addData], hdistinct, ?_⟩
  intro q hq
  have hnil : ∀ q, look .nil q = none := by
    intro q
    cases q with
    | nil => rfl
    | cons s q => cases q <;> rfl
  rw [hlook q hq]
  simp [placed, hnil, merge]

/-- A database holds one record only. -/
theorem HoldsOnly.eq {db : Db} {r s : Record} (hr : HoldsOnly db r) (hs : HoldsOnly db s)
    (hpath : r.path ≠ []) (hfields : r.fields ≠ []) : r = s := by
  have h := (hr.look _ hpath).symm.trans (hs.look _ hpath)
  simp only [if_true] at h
  split_ifs at h with he hp
  · obtain ⟨hb, hseq, hf⟩ : r.block = s.block ∧ r.seq = s.seq ∧ r.fields = s.fields := by
      simpa [Record.shown] using h
    cases r
    cases s
    simp_all
  · have hf : r.fields = [] := congrArg (fun x : Shown => x.2.2) (Option.some.inj h)
    exact absurd hf hfields

/-- The account is read just if its record has its path and its fields. -/
theorem reads_iff {e : Account} {b : Bytes} {block : ℕ} {seq : UInt16} {k : ℕ} :
    Reads e b block seq k ↔
      ∃ r, parseRecord block seq (b ++ List.replicate k 0) = some r ∧
        r.path.map CString.bytes = e.names.map utf8 ∧ r.fields = e.fields := by
  constructor
  · rintro ⟨db, r, hdb, hr, hblock, hseq, hpath, hfields⟩
    cases hparse : parseRecord block seq (b ++ List.replicate k 0) with
    | none =>
        obtain rfl : dbOpenEmpty.addInvalid 1 = db := by
          simpa [processPayload, hparse] using hdb
        exact absurd hr.data (by decide)
    | some s =>
        obtain ⟨db', hdb', hs⟩ := processPayload_holds hparse
        obtain rfl := Option.some.inj (hdb'.symm.trans hdb)
        obtain ⟨id, rest, hid, -⟩ := (parseRecord_storable hparse).id
        obtain rfl := hs.eq hr (parseRecord_spec hparse).2.2 (by simp [hid])
        exact ⟨s, rfl, hpath, hfields⟩
  · rintro ⟨r, hr, hpath, hfields⟩
    obtain ⟨db, hdb, hholds⟩ := processPayload_holds hr
    obtain ⟨hblock, hseq, -⟩ := parseRecord_spec hr
    exact ⟨db, r, hdb, hholds, hblock, hseq, hpath, hfields⟩

/-- An entry in a directory that has no record. -/
def zebra : Account where
  value
    | .id => some (.list ["Zebra".toList, "Grevyi".toList])
    | .hotpSecret => some (.str "GEZDGNBV".toList)
    | .hotpCounter => some (.num 300)
    | _ => none
  named := rfl

theorem zebra_fits : Fits zebra.value := by
  intro key v hv
  cases key <;> simp only [zebra, Option.some.injEq, reduceCtorEq] at hv <;> subst hv
  · exact ⟨_, rfl, by decide +kernel⟩
  · exact ⟨[49, 50, 51, 52, 53], by decide +kernel, by decide⟩
  · exact ⟨[44, 1, 0, 0, 0, 0, 0, 0], by decide +kernel, by decide⟩

theorem zebra_plain : Plain zebra where
  ascii := by
    intro key v hv
    cases key <;> simp only [zebra, Option.some.injEq, reduceCtorEq] at hv <;> subst hv <;>
      decide +kernel
  named := by simp [Account.names, zebra]
  nulFree := by decide +kernel

/-- An entry with an accented letter in the name of the user. -/
def accented : Account where
  value
    | .id => some (.str "demo".toList)
    | .user => some (.str "Zoé".toList)
    | _ => none
  named := rfl

end Sunela.Accenc
