import Sunela.Model.Hotp
import Sunela.Verification.Alloc.Runs

/-! # Counters of one-time passwords

While blocks are left, the counter in memory advances with every code. The one on storage is
behind only as long as the last write has failed. -/

namespace Sunela.Hotp

open Program Storage Span Block Fields Entry Database Remote Serial

/-! ## Fields with a counter -/

def counters (fs : List DbField) : List DbField := fs.filter fun f => f.type = ftHotpCounter

/-- The counter that the next code is computed from. -/
def counterOf (fs : List DbField) : Option UInt64 :=
  (counters fs).getLast?.map fun f => le64 f.data

theorem le64_bytes64 (t : UInt64) : le64 (bytes64 t) = t := by
  have ht := t.toNat_lt
  apply UInt64.toNat_inj.mp
  simp only [le64, bytes64, List.range_succ, List.range_zero, List.nil_append, List.cons_append,
    List.map_cons, List.map_nil, List.foldr_cons, List.foldr_nil, UInt64.toNat_add,
    UInt64.toNat_mul, UInt64.toNat_ofNat', UInt8.toNat_ofNat', Nat.shiftRight_eq_div_pow]
  simp
  omega

theorem bytes64_length (t : UInt64) : (bytes64 t).length = 8 := by simp [bytes64]

theorem counters_cons (f : DbField) (fs : List DbField) :
    counters (f :: fs) = if f.type = ftHotpCounter then f :: counters fs else counters fs := by
  simp [counters, List.filter_cons]

theorem counters_addField {type : UInt8} (h : type ≠ ftHotpCounter) (fs : List DbField)
    (data : Bytes) : counters (addField fs type data) = counters fs := by
  induction fs with
  | nil => simp [addField, counters, h]
  | cons f fs ih =>
      rw [addField]
      split
      · rw [counters_cons, DbField.ofData_type, if_neg h]
      · rw [counters_cons, counters_cons, ih]

theorem counters_fixShown (parent : Bool) (s : Shown) :
    counters (fixShown parent s).2.2 = counters s.2.2 := by
  have hdir : ftDir ≠ ftHotpCounter := by decide
  unfold fixShown
  split_ifs
  · rfl
  · exact counters_addField hdir _ _
  · rfl

private theorem foldlM_counter {fs : List DbField} {r t : Option Bytes × Option Bytes}
    (h : fs.foldlM (fun r f =>
      if f.type = ftHotpSecret then some (if f.data = [] then none else some f.data, r.2)
      else if f.type = ftHotpCounter then
        if f.data.length = 8 then some (r.1, some f.data) else none
      else some r) r = some t) :
    t.2 = ((counters fs).getLast?.map DbField.data).or r.2 ∧
      ∀ f ∈ counters fs, f.data.length = 8 := by
  induction fs generalizing r with
  | nil =>
      obtain rfl : r = t := by simpa using h
      simp [counters]
  | cons f fs ih =>
      have hne : ftHotpSecret ≠ ftHotpCounter := by decide
      rw [List.foldlM_cons] at h
      by_cases hsecret : f.type = ftHotpSecret
      · simp only [hsecret, if_true, Option.bind_eq_bind, Option.bind_some] at h
        rw [counters_cons, if_neg (by rwa [hsecret])]
        have hrest := ih h
        exact hrest
      · by_cases hcounter : f.type = ftHotpCounter
        · by_cases hlen : f.data.length = 8
          · simp only [hcounter, hne.symm, hlen, if_true, if_false, Option.bind_eq_bind,
              Option.bind_some] at h
            obtain ⟨ht, hall⟩ := ih h
            rw [counters_cons, if_pos hcounter]
            refine ⟨?_, by simpa [hlen] using hall⟩
            rw [ht]
            cases hlast : (counters fs).getLast? with
            | none => simp [List.getLast?_cons, hlast]
            | some g => simp [List.getLast?_cons, hlast]
          · simp [hcounter, hne.symm, hlen] at h
        · simp only [hsecret, hcounter, if_false, Option.bind_eq_bind, Option.bind_some] at h
          rw [counters_cons, if_neg hcounter]
          exact ih h

theorem hotpFields_counter {fs : List DbField} {secret : Option Bytes} {counter : Bytes}
    (h : hotpFields fs = some (secret, some counter)) :
    counterOf fs = some (le64 counter) ∧ ∀ f ∈ counters fs, f.data.length = 8 := by
  obtain ⟨ht, hall⟩ := foldlM_counter h
  refine ⟨?_, hall⟩
  cases hlast : (counters fs).getLast? with
  | none => simp [hlast] at ht
  | some f =>
      have hdata : counter = f.data := by simpa [hlast] using ht
      simp [counterOf, hlast, hdata]

/-- The only counter is replaced, by data of the same length. -/
theorem setField_counter {fs : List DbField} (hs : Sorted fs) {f : DbField}
    (hf : counters fs = [f]) {data : Bytes} (hl : data.length = f.data.length) :
    counters (setField fs ftHotpCounter data) = [.ofData ftHotpCounter data] ∧
      (setField fs ftHotpCounter data).map (fun g => g.data.length) =
        fs.map fun g => g.data.length := by
  have hshort : data.length < 256 := hl ▸ f.fits
  induction fs with
  | nil => simp [counters] at hf
  | cons g fs ih =>
      obtain ⟨hg, hfs⟩ := sorted_cons.mp hs
      rw [counters_cons] at hf
      rw [setField]
      by_cases htype : g.type = ftHotpCounter
      · rw [if_pos htype] at hf
        obtain ⟨rfl, hnil⟩ := List.cons.inj hf
        rw [if_pos (by rw [htype]; exact UInt8.le_refl _), if_pos htype]
        refine ⟨by rw [counters_cons, DbField.ofData_type, if_pos rfl, hnil], ?_⟩
        simp [DbField.ofData_data _ hshort, hl]
      · rw [if_neg htype] at hf
        have hlow : ¬ ftHotpCounter ≤ g.type := by
          intro hle
          have hmem : f ∈ counters fs := by rw [hf]; simp
          obtain ⟨hm, ht⟩ := List.mem_filter.mp hmem
          have hle' := hg f hm
          rw [of_decide_eq_true ht] at hle'
          exact htype (UInt8.le_antisymm hle' hle)
        obtain ⟨hc, hlen⟩ := ih hfs hf
        rw [if_neg hlow]
        exact ⟨by rw [counters_cons, if_neg htype, hc], by simp [hlen]⟩

theorem encodeFields_isSome {room : ℕ} {fs : List DbField} :
    (encodeFields room fs).isSome ↔
      ((fs.map fun f => f.data.length).map (· + 2)).sum ≤ room := by
  induction fs generalizing room with
  | nil => simp [encodeFields]
  | cons f fs ih =>
      simp only [encodeFields, List.map_cons, List.sum_cons]
      split
      · simp only [Option.isSome_none, Bool.false_eq_true, false_iff]
        omega
      · rw [Option.isSome_map, ih]
        omega

/-! ## Updates -/

variable {env : Env} {torn : Torn} {hmacSha1 : HmacSha1} {db : Db} {f : Flash}

theorem wp_discard_cells {n : ℕ} :
    wp (anyContract torn) (Database.discard env db n) (fun r g => r.2.entries = db.entries ∧
      r.2.erased = db.erased ∧ g.bad = f.bad ∧ ∀ m, m ≠ n → g.cells m = f.cells m) f := by
  unfold Database.discard
  rw [wp_bind]
  refine wp_blockDelete (lenient_any f) (fun _ => trivial) (fun _ => ?_) fun x _ _ => ?_
  · simp only [if_true]
    cases spanAdd db.deleted n 1 Nat.one_pos with
    | none => trivial
    | some deleted => exact ⟨rfl, rfl, rfl, fun m hm => Flash.set_of_ne f _ hm⟩
  · exact ⟨rfl, rfl, rfl, fun m hm => Flash.set_of_ne f x hm⟩

/-- What an update of an entry leaves: nothing else changes, and if it succeeds, the record of
the entry is in its new block. -/
structure Updated (env : Env) (q : Path) (db : Db) (f : Flash) (p new : ℕ) (de : DbEntry)
    (ok : Bool) (db' : Db) (g : Flash) : Prop where
  entries : db'.entries = modify p (renewed new) db.entries
  erased : db'.erased = db.erased
  bad : g.bad = f.bad
  cells : ∀ m, m ≠ new → m ≠ de.block → g.cells m = f.cells m
  record : ok = true → recordIn env g new = some ⟨new, de.seq + 1, q, de.fields⟩

theorem wp_updateEntry_updated {p new : ℕ} {de : DbEntry} {ch : Tree} {q : Path}
    (hfind : find p db.entries = some (de, ch)) (hcell : f.cells new = erasedBlock)
    (hbad : f.bad new = false) (hne : de.block ≠ new) (hs : Storable de.fields q) :
    wp (anyContract torn) (updateEntry env db p new)
      (fun r g => Updated env q db f p new de r.1 r.2 g) f := by
  unfold updateEntry
  rw [hfind]
  simp only [wp_bind]
  have hfailed : ∀ g, g.bad = f.bad → (∀ m, m ≠ new → g.cells m = f.cells m) →
      wp (anyContract torn)
        (Database.discard env { db with entries := modify p (renewed new) db.entries } new)
        (fun r g => Updated env q db f p new de false r.2 g) g := by
    intro g hb hc
    refine wp_mono wp_discard_cells ?_
    rintro r g' ⟨hentries, herased, hbad', hcells⟩
    exact ⟨hentries, herased, hbad'.trans hb, fun m hm _ => (hcells m hm).trans (hc m hm),
      fun h => by cases h⟩
  refine wp_writeEntry (lenient_any f) hcell (fun _ _ _ _ => trivial)
    (fun _ => ?_) (fun b payload he _ hp => ?_) fun b x payload _ _ _ => ?_
  · simp only [Bool.not_false, if_true, wp_bind]
    exact hfailed f rfl fun _ _ => rfl
  · have hrec : recordIn env (f.set new b) new = some ⟨new, de.seq + 1, q, de.fields⟩ :=
      recordIn_packed he hs hp hbad
    have hset : ∀ m, m ≠ new → (f.set new b).cells m = f.cells m := fun m hm =>
      Flash.set_of_ne f b hm
    simp only [Bool.not_true, Bool.false_eq_true, if_false]
    split
    · rw [wp_bind]
      refine wp_mono wp_discard_cells ?_
      rintro ⟨done, db'⟩ g ⟨hentries, herased, hbad', hcells⟩
      have hkept : recordIn env g new = recordIn env (f.set new b) new :=
        recordIn_of_cells (hcells new fun h => hne h.symm) hbad'
      cases done <;> exact ⟨hentries, herased, hbad', fun m hm hm' =>
        (hcells m hm').trans (hset m hm), fun _ => hkept.trans hrec⟩
    · exact ⟨rfl, rfl, rfl, fun m hm _ => hset m hm, fun _ => hrec⟩
  · simp only [Bool.not_false, if_true, wp_bind]
    exact hfailed (f.set new x) rfl fun m hm => Flash.set_of_ne f x hm

/-- A contract for runs in which no record fails to be written. -/
def writesContract (torn : Torn) : Contract Cmd Reply Flash where
  step := Writes torn True
  call _ _ := True
  halt _ _ := True
  undef _ := True

theorem wp_writes {α : Type} {p : Fw α} {Q : α → Flash → Prop}
    (h : wp (anyContract torn) p Q f) : wp (writesContract torn) p Q f :=
  wp_transfer (I := fun _ => True) (fun _ _ _ _ => ⟨trivial, fun _ _ hs => ⟨hs.1, trivial⟩⟩)
    (fun _ _ _ _ => trivial) (fun _ _ _ => trivial) trivial h fun _ _ _ h => h

theorem wp_writeEntry_writes {de : DbEntry}
    (hfits : (encodeFields storageBlockSize de.fields).isSome) :
    wp (writesContract torn) (writeEntry env db de) (fun r _ => r.1 = true) f := by
  obtain ⟨payload, hp⟩ := Option.isSome_iff_exists.mp hfits
  unfold writeEntry
  split
  · trivial
  · rw [hp]
    simp only [wp_bind]
    unfold blockWrite dbEncrypt
    split
    · trivial
    split
    · trivial
    · simp only []
      split
      · trivial
      · next hcap =>
          refine ⟨trivial, fun nonce g hn => ⟨trivial, fun rk g' hk => ⟨trivial, ?_⟩⟩⟩
          rintro ok g'' ⟨-, hw⟩
          have hnonce : List.length (α := UInt8) nonce = 24 := by
            cases hn.1 with
            | random _ _ h => exact h
          have hrk : List.length (α := UInt8) rk = 32 := by
            cases hk.1 with
            | random _ _ h => exact h
          have hzero : env.c.encrypt nonce rk (packed 4 de.seq payload) ≠ zeroBlock :=
            encrypt_ne_zeroBlock hnonce hrk (Nat.le_of_not_lt hcap)
          cases ok with
          | true => rfl
          | false => exact absurd ⟨hzero, rfl⟩ (hw trivial)

theorem wp_updateEntry_writes {p new : ℕ} {de : DbEntry} {ch : Tree}
    (hfind : find p db.entries = some (de, ch))
    (hfits : (encodeFields storageBlockSize de.fields).isSome) :
    wp (writesContract torn) (updateEntry env db p new) (fun r _ => r.1 = true) f := by
  unfold updateEntry
  rw [hfind]
  simp only [wp_bind]
  refine wp_mono (wp_writeEntry_writes hfits) ?_
  rintro ⟨ok, db'⟩ g hok
  obtain rfl : ok = true := hok
  simp only [Bool.not_true, Bool.false_eq_true, if_false]
  split
  · rw [wp_bind]
    exact wp_mono (wp_writes wp_discard_cells) fun _ _ _ => rfl
  · rfl

/-! ## Taps -/

/-- The code can be used: there is a block for the next record, the counter is the only one,
and it is not the last. -/
structure Ready (db : Db) (e : DbEntry) : Prop where
  erased : db.erased.blocks ≠ []
  one : (counters e.fields).length ≤ 1
  last : ∀ f ∈ counters e.fields, le64 f.data ≠ 0xffffffffffffffff

/-- The entry after the counter has been changed and stored. -/
def advanced (new : ℕ) (counter : UInt64) (e : DbEntry) : DbEntry :=
  renewed new (withField ftHotpCounter (bytes64 counter) e)

theorem modify_modify {p : ℕ} {g h : DbEntry → DbEntry} (hg : ∀ e, (g e).ptr = e.ptr) (F : Tree) :
    Entry.modify p h (Entry.modify p g F) = Entry.modify p (h ∘ g) F := by
  unfold Entry.modify
  rw [Forest.map_map]
  congr 1
  funext e
  by_cases hp : e.is p = true
  · have hp' : (g e).is p = true := is_iff.mpr ((hg e).trans (is_iff.mp hp))
    simp [hp, hp']
  · simp [hp]

/-- What a tap that shows a code does to the database and the storage. -/
structure Shows (env : Env) (q : Path) (db : Db) (f : Flash) (de : DbEntry) (d : Display)
    (saved : Prop) (db' : Db) (g : Flash) : Prop where
  counter : counterOf de.fields = some d.counter
  next : counterOf (setField de.fields ftHotpCounter (bytes64 (d.counter + 1))) =
    some (d.counter + 1)
  later : d.counter < d.counter + 1
  update : ∃ n rest, db.erased.blocks = n :: rest.blocks ∧ rest.Intact ∧ db'.erased = rest ∧
    db'.entries = modify de.ptr (advanced n (d.counter + 1)) db.entries ∧ g.bad = f.bad ∧
    (∀ m, m ≠ n → m ≠ de.block → g.cells m = f.cells m) ∧
    (saved → recordIn env g n = some ⟨n, de.seq + 1, q,
      setField de.fields ftHotpCounter (bytes64 (d.counter + 1))⟩)

/-- While blocks are left, the counter advances in memory, and with it the storage unless a
write fails. -/
theorem changeField_advances {saved : Prop} {q : Path} {de : DbEntry} {ch : Tree}
    {counter : UInt64} {ok : Bool} {db' : Db} {g : Flash} (hl : Linked db.entries)
    (hfind : find de.ptr db.entries = some (de, ch)) (hdefer : de.defer = false)
    (hintact : db.erased.Intact)
    (herased : ∀ n ∈ db.erased.blocks, f.bad n = false ∧ f.cells n = erasedBlock)
    (hblock : de.block ∉ db.erased.blocks) (hs : Storable de.fields q)
    (hne : db.erased.blocks ≠ [])
    (hfits : saved → (encodeFields storageBlockSize
      (setField de.fields ftHotpCounter (bytes64 counter))).isSome)
    (hr : Returns (Writes torn saved)
      (dbChangeField env db de.ptr ftHotpCounter (bytes64 counter)) f (ok, db') g) :
    ∃ n rest, db.erased.blocks = n :: rest.blocks ∧ rest.Intact ∧ db'.erased = rest ∧
      db'.entries = modify de.ptr (advanced n counter) db.entries ∧ g.bad = f.bad ∧
      (∀ m, m ≠ n → m ≠ de.block → g.cells m = f.cells m) ∧
      (saved → recordIn env g n = some ⟨n, de.seq + 1, q,
        setField de.fields ftHotpCounter (bytes64 counter)⟩) := by
  have htype : ftHotpCounter ≠ ftId ∧ ftHotpCounter ≠ ftPrev ∧ ftHotpCounter ≠ ftEnd := by decide
  rcases spanPullOne_cases hintact with ⟨hnull, -⟩ | ⟨n, rest, hpull, hrest, hblocks⟩
  · exact absurd (by rw [hnull]; rfl) hne
  have hmem : n ∈ db.erased.blocks := by simp [hblocks]
  have hneq : de.block ≠ n := fun he => hblock (he ▸ hmem)
  let db₁ : Db := { db.popped n rest with
    entries := modify de.ptr (withField ftHotpCounter (bytes64 counter)) db.entries }
  have hprog : dbChangeField env db de.ptr ftHotpCounter (bytes64 counter) =
      updateEntry env db₁.changed de.ptr n := by
    unfold dbChangeField changeEntry
    rw [hfind, getErasedBlock_pop hpull]
    simp only [hdefer, Bool.false_eq_true, if_false, Prog.ret_bind, changeField, htype.1,
      htype.2.1, or_self]
    rfl
  obtain ⟨ch', hfind'⟩ := find_modify (G := db₁.changed.entries) hl
    (g := withField ftHotpCounter (bytes64 counter)) (fun _ => rfl) (List.Perm.refl _) hfind
  rw [hprog] at hr
  have hany : Returns (Step torn) (updateEntry env db₁.changed de.ptr n) f (ok, db') g :=
    hr.mono fun _ _ _ _ h => h.1
  have hupd := wp_returns (K := anyContract torn)
    (wp_updateEntry_updated hfind' (herased n hmem).2 (herased n hmem).1 hneq
      (hs.setField ⟨htype.2.2, htype.1⟩ (bytes64 counter))) hany
  refine ⟨n, rest, hblocks, hrest, hupd.erased, ?_, hupd.bad, hupd.cells, fun hsaved => ?_⟩
  · rw [hupd.entries]
    exact modify_modify (g := withField ftHotpCounter (bytes64 counter)) (h := renewed n)
      (fun _ => rfl) db.entries
  · have hok : ok = true := wp_returns (K := writesContract torn)
      (wp_updateEntry_writes hfind' (hfits hsaved))
      (hr.mono fun _ _ _ _ h => ⟨h.1, fun _ => h.2 hsaved⟩)
    exact hupd.record hok

/-- The counter of an account that is ready is followed by another one. -/
theorem Ready.advances {de : DbEntry} (h : Ready db de) {counter : UInt64}
    (hc : counterOf de.fields = some counter) (hlen : ∀ f ∈ counters de.fields, f.data.length = 8)
    (hs : Sorted de.fields) :
    counterOf (setField de.fields ftHotpCounter (bytes64 (counter + 1))) = some (counter + 1) ∧
      counter < counter + 1 ∧
      (setField de.fields ftHotpCounter (bytes64 (counter + 1))).map (fun g => g.data.length) =
        de.fields.map fun g => g.data.length := by
  have hone : ∃ f, counters de.fields = [f] := by
    have hle := h.one
    match hcs : counters de.fields with
    | [] => simp [counterOf, hcs] at hc
    | [f] => exact ⟨f, rfl⟩
    | _ :: _ :: _ => simp [hcs] at hle
  obtain ⟨f, hf⟩ := hone
  have hdata : le64 f.data = counter := by simpa [counterOf, hf] using hc
  have hmem : f ∈ counters de.fields := by simp [hf]
  have hlast : counter ≠ 0xffffffffffffffff := hdata ▸ h.last f hmem
  have hl : (bytes64 (counter + 1)).length = f.data.length := by
    rw [bytes64_length, hlen f hmem]
  obtain ⟨hset, hlens⟩ := setField_counter hs hf hl
  refine ⟨?_, ?_, hlens⟩
  · rw [counterOf, hset]
    simp [DbField.ofData_data _ (show (bytes64 (counter + 1)).length < 256 by
      rw [bytes64_length]; decide), le64_bytes64]
  · have hlt := counter.toNat_lt
    have hne : counter.toNat ≠ 18446744073709551615 := fun he =>
      hlast (UInt64.toNat_inj.mp he)
    rw [UInt64.lt_iff_toNat_lt, UInt64.toNat_add]
    simp
    omega

theorem setCounterEntry_same {device : Device} {p : ℕ} {next : UInt32} {g : Flash}
    (h : Returns device (setCounterEntry db p) f next g) : g = f := by
  unfold setCounterEntry at h
  split at h
  · cases h
  · split at h
    · cases h
    · split at h
      · exact (reaches_ret.mp h).2
      · cases h

/-- A tap shows nothing and leaves everything alone, or shows a code. -/
theorem tap_cases {saved : Prop} {q : Path} {de : DbEntry} {ch : Tree} {field : Option DbField}
    {out : Option Display} {db' : Db} {g : Flash}
    (hl : Linked db.entries) (hfind : find de.ptr db.entries = some (de, ch))
    (hdefer : de.defer = false) (hintact : db.erased.Intact)
    (herased : ∀ n ∈ db.erased.blocks, f.bad n = false ∧ f.cells n = erasedBlock)
    (hblock : de.block ∉ db.erased.blocks) (hs : counters de.fields ≠ [] → Storable de.fields q)
    (hready : ∀ f, field = some f → f.type = ftHotpSecret → Ready db de)
    (hfits : saved → (encodeFields storageBlockSize de.fields).isSome)
    (hr : Returns (Writes torn saved) (uiAccountTap env hmacSha1 db de.ptr field) f (out, db') g) :
    (out = none ∧ db' = db ∧ g = f) ∨
      ∃ d, out = some d ∧ Shows env q db f de d saved db' g := by
  have hnothing : ∀ {o : Option Display},
      Returns (Writes torn saved) (.ret (none, db)) f (o, db') g → o = none ∧ db' = db ∧ g = f := by
    intro o h
    obtain ⟨he, hg⟩ := reaches_ret.mp h
    obtain ⟨rfl, rfl⟩ := Prod.mk.inj (Prog.ret.inj he)
    exact ⟨rfl, rfl, hg⟩
  unfold uiAccountTap at hr
  split at hr
  · exact .inl (hnothing hr)
  next field =>
  rw [hfind] at hr
  simp only [] at hr
  split at hr
  · cases hr
  · next secret counter hfields =>
      split at hr
      · exact .inl (hnothing hr)
      · next htype =>
          have hrdy := hready field rfl (not_not.mp htype)
          obtain ⟨hcounter, hlen⟩ := hotpFields_counter hfields
          have hne : counters de.fields ≠ [] := by
            intro hnil
            simp [counterOf, hnil] at hcounter
          have hst := hs hne
          obtain ⟨hnext, hlater, hlens⟩ := hrdy.advances hcounter hlen hst.sorted
          obtain ⟨⟨ok, db₁⟩, f₁, hchange, hrest⟩ := returns_bind hr
          obtain ⟨next, f₂, hset, hrest⟩ := returns_bind hrest
          obtain ⟨he, rfl⟩ := reaches_ret.mp hrest
          obtain ⟨rfl, rfl⟩ := Prod.mk.inj (Prog.ret.inj he)
          obtain rfl : g = f₁ := setCounterEntry_same hset
          refine .inr ⟨_, rfl, hcounter, hnext, hlater, ?_⟩
          refine changeField_advances hl hfind hdefer hintact herased hblock hst hrdy.erased
            (fun hsaved => ?_) hchange
          rw [encodeFields_isSome, hlens]
          exact encodeFields_isSome.mp (hfits hsaved)
  · exact .inl (hnothing hr)

/-! ## Runs -/

/-- All other records of the path are older than that of the entry, the way `process_payload`
compares them. -/
def Foremost (env : Env) (f : Flash) (q : Path) (e : DbEntry) : Prop :=
  ∀ r ∈ records env f, r.path = q → r.block ≠ e.block →
    Behind 0x8000 r.seq.toNat e.seq.toNat ∧ ¬ Behind 0x8000 e.seq.toNat r.seq.toNat

/-- Taps on the account of a path and power cycles, with what was shown, the last first. Any
operation of the storage may fail, but the power only fails while the last counter is stored. -/
inductive Tapped (env : Env) (hmacSha1 : HmacSha1) (torn : Torn) (q : Path) (s : State) :
    State → Prop → List Display → Prop where
  | start : Tapped env hmacSha1 torn q s s True []
  | tap {t : State} {saved : Prop} {shown : List Display} {e : DbEntry} {field : Option DbField}
      {out : Option Display} {db : Db} {g : Flash} (writes : Prop)
      (run : Tapped env hmacSha1 torn q s t saved shown) (sits : Sits t.db.entries q e)
      (ready : ∀ f, field = some f → f.type = ftHotpSecret → Ready t.db e)
      (fits : writes → (encodeFields storageBlockSize e.fields).isSome)
      (ends : Returns (Writes torn writes) (uiAccountTap env hmacSha1 t.db e.ptr field) t.flash
        (out, db) g) :
      Tapped env hmacSha1 torn q s ⟨db, g⟩ (if out.isSome then writes else saved)
        (out.toList ++ shown)
  | reopen {t : State} {saved : Prop} {shown : List Display} {st st' : Settings} {db : Db}
      (run : Tapped env hmacSha1 torn q s t saved shown) (h : saved)
      (foremost : ∀ e, Sits t.db.entries q e → Foremost env t.flash q e)
      (opens : dbOpen env st t.flash = some (db, st')) :
      Tapped env hmacSha1 torn q s ⟨db, t.flash⟩ True shown

/-- The counter in memory has not been used, nor has that on the storage if it was stored. -/
structure Counting (env : Env) (q : Path) (s : State) (saved : Prop) (shown : List Display) :
    Prop where
  distinct : s.db.entries.Distinct DbEntry.name
  linked : Linked s.db.entries
  intact : s.db.erased.Intact
  nodup : s.db.erased.blocks.Nodup
  erased : ∀ n ∈ s.db.erased.blocks, n ∈ dbBlocks env ∧ s.flash.bad n = false ∧
    s.flash.cells n = erasedBlock
  apart : ∀ e, Sits s.db.entries q e → e.block ∉ s.db.erased.blocks
  prompt : ∀ e, Sits s.db.entries q e → e.defer = false
  storable : ∀ e, Sits s.db.entries q e → counters e.fields ≠ [] → Storable e.fields q
  stored : saved → ∀ e, Sits s.db.entries q e → counters e.fields ≠ [] →
    ∃ r, r ∈ records env s.flash ∧ r.block = e.block ∧ r.path = q ∧ r.seq = e.seq ∧
      counters r.fields = counters e.fields
  later : ∀ d ∈ shown, ∃ e counter, Sits s.db.entries q e ∧
    counterOf e.fields = some counter ∧ d.counter < counter
  decreasing : shown.Pairwise fun a b => b.counter < a.counter

theorem Sits.unique {F : Tree} (hd : F.Distinct DbEntry.name) {q : Path} {d e : DbEntry}
    (h : Sits F q d) (h' : Sits F q e) : d = e := by
  have hl := (Forest.lookup_eq_some_iff hd).mpr h
  rw [(Forest.lookup_eq_some_iff hd).mpr h'] at hl
  exact (Option.some.inj hl).symm

theorem Sits.mem {F : Tree} {q : Path} {e : DbEntry} (h : Sits F q e) : e ∈ F.entries := by
  obtain ⟨c, hc, -⟩ := h
  exact Forest.mem_entries_iff.mpr ⟨c ++ [e], hc, by simp⟩

theorem sits_look {F : Tree} (hd : F.Distinct DbEntry.name) {q : Path} {e : DbEntry}
    (h : Sits F q e) : q ≠ [] ∧ look F q = some (view e) := by
  have hl := (Forest.lookup_eq_some_iff hd).mpr h
  obtain ⟨c, -, rfl⟩ := h
  refine ⟨by simp, ?_⟩
  obtain ⟨r, hr, rfl⟩ := Option.map_eq_some_iff.mp hl
  unfold look
  rw [hr]
  rfl

theorem sits_of_look {F : Tree} (hd : F.Distinct DbEntry.name) {q : Path} {v : Shown}
    (h : look F q = some v) : ∃ e, Sits F q e ∧ view e = v := by
  obtain ⟨r, hr, rfl⟩ := Option.map_eq_some_iff.mp h
  exact ⟨r.1, (Forest.lookup_eq_some_iff hd).mp (by rw [hr]; rfl), rfl⟩

theorem Sits.find {F : Tree} (hl : Linked F) {q : Path} {e : DbEntry} (h : Sits F q e) :
    ∃ ch, find e.ptr F = some (e, ch) := by
  obtain ⟨⟨d, ch⟩, hd⟩ := Option.isSome_iff_exists.mp (find_isSome.mpr ⟨e, h.mem, rfl⟩)
  obtain ⟨hmem, hptr⟩ := mem_entries_of_find hd
  obtain rfl := hl.eq_of_ptr hmem h.mem hptr
  exact ⟨ch, hd⟩

/-- The entry at a path after a change that keeps all names. -/
theorem sits_modify {F : Tree} {p : ℕ} {g : DbEntry → DbEntry} (hg : ∀ e, (g e).name = e.name)
    {q : Path} {e : DbEntry} :
    Sits (modify p g F) q e ↔ ∃ d, Sits F q d ∧ e = if d.is p then g d else d := by
  have hname : ∀ d : DbEntry, (if d.is p then g d else d).name = d.name := by
    intro d
    split
    · exact hg d
    · rfl
  have hnames : ∀ c : List DbEntry,
      (c.map fun d => if d.is p then g d else d).map DbEntry.name = c.map DbEntry.name := by
    intro c
    rw [List.map_map]
    exact List.map_congr_left fun d _ => hname d
  constructor
  · rintro ⟨c, hc, hq⟩
    unfold Entry.modify at hc
    rw [Forest.chains_map] at hc
    obtain ⟨c₀, hc₀, heq⟩ := List.mem_map.mp hc
    obtain ⟨a, m, rfl, rfl, hm⟩ := List.map_eq_append_iff.mp heq
    obtain ⟨d, m', rfl, rfl, hm'⟩ := List.map_eq_cons_iff.mp hm
    obtain rfl := List.map_eq_nil_iff.mp hm'
    refine ⟨d, ⟨a, hc₀, ?_⟩, rfl⟩
    rw [← hq, ← hnames (a ++ [d])]
    simp
  · rintro ⟨d, ⟨c, hc, hq⟩, rfl⟩
    refine ⟨c.map fun d => if d.is p then g d else d, ?_, ?_⟩
    · unfold Entry.modify
      rw [Forest.chains_map]
      exact List.mem_map.mpr ⟨c ++ [d], hc, by simp⟩
    · rw [← hq, ← hnames (c ++ [d])]
      simp

/-- The account is the only entry that changes. -/
theorem sits_self {F : Tree} (hd : F.Distinct DbEntry.name) {q : Path} {e x : DbEntry}
    (h : Sits F q e) {g : DbEntry → DbEntry} (hg : ∀ e, (g e).name = e.name) :
    Sits (modify e.ptr g F) q x ↔ x = g e := by
  have hself : e.is e.ptr = true := is_iff.mpr rfl
  rw [sits_modify hg]
  constructor
  · rintro ⟨d, hs, rfl⟩
    obtain rfl := hs.unique hd h
    rw [if_pos hself]
  · rintro rfl
    exact ⟨e, h, by rw [if_pos hself]⟩

theorem distinct_modify {F : Tree} (hd : F.Distinct DbEntry.name) {p : ℕ} {g : DbEntry → DbEntry}
    (hg : ∀ e, (g e).name = e.name) : (modify p g F).Distinct DbEntry.name := by
  have hname : ∀ d : DbEntry, (if d.is p then g d else d).name = d.name := by
    intro d
    split
    · exact hg d
    · rfl
  refine hd.map fun c e x _ _ hne => ?_
  rw [hname, hname]
  exact hne

theorem Counting.tap {q : Path} {t : State} {saved writes : Prop} {shown : List Display}
    (h : Counting env q t saved shown) {e : DbEntry} (sits : Sits t.db.entries q e)
    {field : Option DbField} {out : Option Display} {g : Flash}
    (ready : ∀ f, field = some f → f.type = ftHotpSecret → Ready t.db e)
    (fits : writes → (encodeFields storageBlockSize e.fields).isSome)
    (ends : Returns (Writes torn writes) (uiAccountTap env hmacSha1 t.db e.ptr field) t.flash
      (out, db) g) :
    Counting env q ⟨db, g⟩ (if out.isSome then writes else saved) (out.toList ++ shown) := by
  obtain ⟨ch, hfind⟩ := sits.find h.linked
  rcases tap_cases h.linked hfind (h.prompt e sits) h.intact (fun n hn => (h.erased n hn).2)
    (h.apart e sits) (h.storable e sits) ready fits ends with ⟨rfl, rfl, rfl⟩ | ⟨d, rfl, hshows⟩
  · exact h
  obtain ⟨n, rest, hblocks, hrest, herased, hentries, hbad, hcells, hrecord⟩ := hshows.update
  have hname : ∀ x, (advanced n (d.counter + 1) x).name = x.name := fun _ => rfl
  have hsits : ∀ x, Sits db.entries q x ↔ x = advanced n (d.counter + 1) e := by
    intro x
    rw [hentries]
    exact sits_self h.distinct sits hname
  have hfields : (advanced n (d.counter + 1) e).fields =
      setField e.fields ftHotpCounter (bytes64 (d.counter + 1)) := rfl
  have hcounters : counters e.fields ≠ [] := by
    intro hnil
    have hc := hshows.counter
    simp [counterOf, hnil] at hc
  have hst := h.storable e sits hcounters
  obtain ⟨hn, hnodup⟩ := List.nodup_cons.mp (hblocks ▸ h.nodup)
  have hmem : ∀ m ∈ rest.blocks, m ∈ t.db.erased.blocks := fun m hm => by simp [hblocks, hm]
  refine
    { distinct := ?_, linked := ?_, intact := ?_, nodup := ?_, erased := ?_, apart := ?_
      prompt := ?_, storable := ?_, stored := ?_, later := ?_, decreasing := ?_ }
  · simp only [hentries]
    exact distinct_modify h.distinct hname
  · simp only [hentries]
    exact h.linked.modify fun _ => rfl
  · simp only [herased]
    exact hrest
  · simp only [herased]
    exact hnodup
  · simp only [herased]
    intro m hm
    obtain ⟨hm', hb, hc⟩ := h.erased m (hmem m hm)
    refine ⟨hm', by rw [hbad]; exact hb, ?_⟩
    rw [hcells m (fun he => hn (he ▸ hm)) fun he => h.apart e sits (he ▸ hmem m hm)]
    exact hc
  · intro x hx
    obtain rfl := (hsits x).mp hx
    rw [herased]
    exact hn
  · intro x hx
    obtain rfl := (hsits x).mp hx
    exact h.prompt e sits
  · intro x hx _
    obtain rfl := (hsits x).mp hx
    exact hst.setField (by decide) _
  · intro hw x hx _
    obtain rfl := (hsits x).mp hx
    exact ⟨⟨n, e.seq + 1, q, (advanced n (d.counter + 1) e).fields⟩,
      mem_records.mpr ⟨(h.erased n (by simp [hblocks])).1, hrecord hw⟩, rfl, rfl, rfl, rfl⟩
  · intro d' hd'
    refine ⟨_, d.counter + 1, (hsits _).mpr rfl, hshows.next, ?_⟩
    rcases List.mem_cons.mp hd' with rfl | hd'
    · exact hshows.later
    · obtain ⟨x, counter, hx, hc, hlt⟩ := h.later d' hd'
      obtain rfl := hx.unique h.distinct sits
      obtain rfl := Option.some.inj (hc.symm.trans hshows.counter)
      exact UInt64.lt_trans hlt hshows.later
  · refine List.pairwise_cons.mpr ⟨fun d' hd' => ?_, h.decreasing⟩
    obtain ⟨x, counter, hx, hc, hlt⟩ := h.later d' hd'
    obtain rfl := hx.unique h.distinct sits
    obtain rfl := Option.some.inj (hc.symm.trans hshows.counter)
    exact hlt

theorem fixShown_seq (b : Bool) (s : Shown) : (fixShown b s).2.1 = s.2.1 := by
  unfold fixShown
  split_ifs <;> rfl

/-- What is opened: the fields of the newest record, or no counter at all. -/
theorem counting_opened {q : Path} {s : State} (ho : Opened env s.flash s.db) {e : DbEntry}
    (h : Sits s.db.entries q e) : e.block ∉ s.db.erased.blocks ∧ e.defer = false ∧
      (counters e.fields ≠ [] → Storable e.fields q ∧ ∃ r, newest (records env s.flash) q = some r ∧
        r.block = e.block ∧ r.seq = e.seq ∧ counters r.fields = counters e.fields) := by
  refine ⟨ho.alloc.entries e h.mem, (ho.handles e h.mem).2, fun hc => ?_⟩
  obtain ⟨hq, hl⟩ := sits_look ho.distinct h
  rw [ho.look q hq] at hl
  rcases opened_cases hl with ⟨r, hn, hs⟩ | ⟨-, -, hs⟩
  · obtain ⟨hr, rfl⟩ := newest_mem hn
    have hfields : e.fields = (fixShown (isParent (records env s.flash) r.path) r.shown).2.2 :=
      congrArg (fun s => s.2.2) hs
    have hblock : e.block = r.block := by
      have hb := congrArg Prod.fst hs
      rwa [fixShown_block] at hb
    have hseq : e.seq = r.seq := by
      have hs' := congrArg (fun s => s.2.1) hs
      rwa [fixShown_seq] at hs'
    refine ⟨?_, r, hn, hblock.symm, hseq.symm, ?_⟩
    · rw [hfields]
      exact Storable.fixShown (s := r.shown) (recordIn_storable (mem_records.mp hr).2) _
    · rw [hfields, counters_fixShown]
      rfl
  · exfalso
    have hfields : e.fields = addField [] ftDir [] := congrArg (fun s => s.2.2) hs
    rw [hfields, counters_addField (by decide)] at hc
    exact hc rfl

/-- The counter is counted from where the storage has left it. -/
theorem opened_counting {q : Path} {s : State} {shown : List Display}
    (ho : Opened env s.flash s.db)
    (hlater : ∀ d ∈ shown, ∃ e counter, Sits s.db.entries q e ∧
      counterOf e.fields = some counter ∧ d.counter < counter)
    (hdecreasing : shown.Pairwise fun a b => b.counter < a.counter) :
    Counting env q s True shown where
  distinct := ho.distinct
  linked := ho.linked
  intact := ho.alloc.intact.1
  nodup := ho.alloc.nodup
  erased := ho.alloc.erased
  apart e he := (counting_opened ho he).1
  prompt e he := (counting_opened ho he).2.1
  storable e he hc := ((counting_opened ho he).2.2 hc).1
  stored _ e he hc := by
    obtain ⟨-, r, hn, hb, hs, hcs⟩ := (counting_opened ho he).2.2 hc
    obtain ⟨hr, hp⟩ := newest_mem hn
    exact ⟨r, hr, hb, hp, hs, hcs⟩
  later := hlater
  decreasing := hdecreasing

theorem Counting.reopen {q : Path} {t : State} {shown : List Display} {saved : Prop}
    (h : Counting env q t saved shown) (hsaved : saved)
    (foremost : ∀ e, Sits t.db.entries q e → Foremost env t.flash q e)
    (ho : Opened env t.flash db) : Counting env q ⟨db, t.flash⟩ True shown := by
  refine opened_counting ho (fun d hd => ?_) h.decreasing
  obtain ⟨e, counter, he, hc, hlt⟩ := h.later d hd
  have hne : counters e.fields ≠ [] := by
    intro hnil
    simp [counterOf, hnil] at hc
  obtain ⟨r, hr, hb, hp, hs, hcs⟩ := h.stored hsaved e he hne
  have hnewest : newest (records env t.flash) q = some r := by
    refine latest_eq_of_behind _ (by simp [hr, hp]) fun r' hr' hne => ?_
    obtain ⟨hm, hp'⟩ := List.mem_filter.mp hr'
    have hblock : r'.block ≠ e.block := by
      intro heq
      have hrec := (mem_records.mp hm).2
      rw [heq, ← hb, (mem_records.mp hr).2] at hrec
      exact hne (Option.some.inj hrec).symm
    have hbehind := foremost e he r' hm (of_decide_eq_true hp') hblock
    rw [← hs] at hbehind
    exact hbehind
  have hq : q ≠ [] := (sits_look h.distinct he).1
  have hlook := ho.look q hq
  rw [opened, scanned, hnewest] at hlook
  obtain ⟨x, hx, hv⟩ := sits_of_look ho.distinct hlook
  refine ⟨x, counter, hx, ?_, hlt⟩
  have hfields : x.fields = (fixShown (isParent (records env t.flash) q) r.shown).2.2 :=
    congrArg (fun s => s.2.2) hv
  have hsame : counters x.fields = counters e.fields := by
    rw [hfields, counters_fixShown]
    exact hcs
  rw [counterOf, hsame]
  exact hc

theorem tapped_counting {q : Path} {s t : State} {saved : Prop} {shown : List Display}
    (ho : Opens env s) (hr : Tapped env hmacSha1 torn q s t saved shown) :
    Counting env q t saved shown := by
  induction hr with
  | start => exact opened_counting ho.opened (by simp) .nil
  | tap writes _ sits ready fits ends ih => exact ih.tap sits ready fits ends
  | @reopen t saved shown st st' db _ hsaved foremost opens ih =>
      have hopens : Opens env ⟨db, t.flash⟩ := ⟨st, st', opens⟩
      exact ih.reopen hsaved foremost hopens.opened

theorem tapped_unique {q : Path} {s t : State} {saved : Prop} {shown : List Display}
    (ho : Opens env s) (hr : Tapped env hmacSha1 torn q s t saved shown) {d e : DbEntry}
    (hd : Sits t.db.entries q d) (he : Sits t.db.entries q e) : d = e :=
  hd.unique (tapped_counting ho hr).distinct he

/-- No two codes are computed from the same counter. -/
theorem tapped_nodup (env : Env) (hmacSha1 : HmacSha1) (torn : Torn) (q : Path) {s t : State}
    {saved : Prop} {shown : List Display} (ho : Opens env s)
    (hr : Tapped env hmacSha1 torn q s t saved shown) : (shown.map Display.counter).Nodup := by
  have hdecreasing := (tapped_counting ho hr).decreasing
  rw [List.Nodup, List.pairwise_map]
  refine hdecreasing.imp fun hlt heq => ?_
  rw [heq] at hlt
  exact UInt64.lt_irrefl _ hlt

/-! ## Taps on an account -/

/-- An account with a secret and the given counter. -/
def hotpAccount (counter : UInt64) : List DbField :=
  [nameField [97], .ofData ftHotpSecret [1, 2, 3], .ofData ftHotpCounter (bytes64 counter)]

/-- The account is in block 8 of a storage with as many blocks as given. -/
def hotpState (storageBlocks : ℕ) : State :=
  afterOpen (plainEnv storageBlocks) (plainFlash [(8, 1, hotpAccount 7)])

/-- A tap on the secret. What is shown as the code does not matter. -/
def tapSecret (env : Env) (db : Db) : Fw (Option Display × Db) :=
  uiAccountTap env (fun _ _ => []) db 0 (some (.ofData ftHotpSecret [1, 2, 3]))

/-- The counter that is used, and the state that is left if nothing fails. -/
def afterTap (env : Env) (s : State) : Option Display × State :=
  let r := run Storage.answer (tapSecret env s.db) s.flash
  (r.1.result?.bind Prod.fst, ⟨(r.1.result?.map Prod.snd).getD s.db, r.2⟩)

theorem returns_afterTap (env : Env) (s : State) {d : Display}
    (h : (afterTap env s).1 = some d) :
    Returns Works (tapSecret env s.db) s.flash (some d, (afterTap env s).2.db)
      (afterTap env s).2.flash := by
  obtain ⟨⟨o, db⟩, hr, ho⟩ := Option.bind_eq_some_iff.mp h
  obtain rfl : o = some d := ho
  have hdb : (afterTap env s).2.db = db := by simp [afterTap, hr]
  rw [hdb]
  exact returns_run answer_works hr

/-- All blocks are full: two taps show the code for the same counter, though no operation of
the storage fails. -/
theorem full_not_nodup :
    Opens (plainEnv 9) (hotpState 9) ∧ ∃ (d₁ d₂ : Display) (s₁ s₂ : State),
      Returns Works (tapSecret (plainEnv 9) (hotpState 9).db) (hotpState 9).flash
        (some d₁, s₁.db) s₁.flash ∧
      Returns Works (tapSecret (plainEnv 9) s₁.db) s₁.flash (some d₂, s₂.db) s₂.flash ∧
      d₁.counter = d₂.counter := by
  have h₁ : (afterTap (plainEnv 9) (hotpState 9)).1 = some ⟨7, 0, 7⟩ := by decide +kernel
  have h₂ : (afterTap (plainEnv 9) (afterTap (plainEnv 9) (hotpState 9)).2).1 =
      some ⟨7, 0, 7⟩ := by decide +kernel
  exact ⟨opens_afterOpen _ _, ⟨7, 0, 7⟩, ⟨7, 0, 7⟩, _, _, returns_afterTap _ _ h₁,
    returns_afterTap _ _ h₂, rfl⟩

/-- The only account of the storage. -/
def hotpEntry (seq : UInt16) (block : ℕ) (counter : UInt64) : DbEntry :=
  ⟨0, .ofBuffer [97], seq, block, false, hotpAccount counter⟩

theorem works_writes {f g : Flash} {c : Cmd} {r : Reply c} (h : Works f c r g) :
    Writes (fun _ _ _ => False) True f c r g := by
  refine ⟨h, fun _ hfail => ?_⟩
  cases h with
  | write => cases hfail.2
  | writeFail _ _ _ h => exact h
  | _ => exact hfail

theorem tapped_secret {q : Path} {s t : State} {saved : Prop} {shown : List Display}
    {e : DbEntry} {d : Display}
    (run : Tapped env (fun _ _ => []) (fun _ _ _ => False) q s t saved shown)
    (sits : Sits t.db.entries q e) (hp : e.ptr = 0) (ready : Ready t.db e)
    (fits : (encodeFields storageBlockSize e.fields).isSome)
    (h : (afterTap env t).1 = some d) :
    Tapped env (fun _ _ => []) (fun _ _ _ => False) q s (afterTap env t).2 True (d :: shown) := by
  have ends := (returns_afterTap env t h).mono fun _ _ _ _ => works_writes
  unfold tapSecret at ends
  rw [← hp] at ends
  exact .tap True run sits (fun _ _ _ => ready) (fun _ => fits) ends

theorem tapped_afterOpen {q : Path} {s t : State} {shown : List Display}
    (run : Tapped env hmacSha1 torn q s t True shown)
    (foremost : ∀ e, Sits t.db.entries q e → Foremost env t.flash q e) :
    Tapped env hmacSha1 torn q s (afterOpen env t.flash) True shown := by
  obtain ⟨st, st', hopen⟩ := opens_afterOpen env t.flash
  exact .reopen run trivial foremost hopen

/-- The state after a tap, and the same storage opened again. -/
def tappedState : State := (afterTap (plainEnv 16) (hotpState 16)).2

def reopenedState : State := afterOpen (plainEnv 16) tappedState.flash

/-- The storage is opened again after a tap, and the next tap uses the next counter. -/
theorem tapped_nodup_reopened :
    ([(⟨8, 0, 9⟩ : Display), ⟨7, 0, 8⟩].map Display.counter).Nodup := by
  have sits₀ : Sits (hotpState 16).db.entries (splitPath [97]) (hotpEntry 1 8 7) :=
    ⟨[], by decide +kernel, by decide +kernel⟩
  have sits₁ : Sits tappedState.db.entries (splitPath [97]) (hotpEntry 2 9 8) :=
    ⟨[], by decide +kernel, by decide +kernel⟩
  have sits₂ : Sits reopenedState.db.entries (splitPath [97]) (hotpEntry 2 9 8) :=
    ⟨[], by decide +kernel, by decide +kernel⟩
  have ready₀ : Ready (hotpState 16).db (hotpEntry 1 8 7) :=
    ⟨by decide +kernel, by decide +kernel, by decide +kernel⟩
  have ready₂ : Ready reopenedState.db (hotpEntry 2 9 8) :=
    ⟨by decide +kernel, by decide +kernel, by decide +kernel⟩
  have fits₀ : (encodeFields storageBlockSize (hotpEntry 1 8 7).fields).isSome := by
    decide +kernel
  have fits₂ : (encodeFields storageBlockSize (hotpEntry 2 9 8).fields).isSome := by
    decide +kernel
  have h₁ : (afterTap (plainEnv 16) (hotpState 16)).1 = some ⟨7, 0, 8⟩ := by decide +kernel
  have h₂ : (afterTap (plainEnv 16) reopenedState).1 = some ⟨8, 0, 9⟩ := by decide +kernel
  have hopens : Opens (plainEnv 16) (hotpState 16) := opens_afterOpen _ _
  have hforemost : Foremost (plainEnv 16) tappedState.flash (splitPath [97])
      (hotpEntry 2 9 8) := by
    unfold Foremost
    decide +kernel
  have run₁ : Tapped (plainEnv 16) (fun _ _ => []) (fun _ _ _ => False) (splitPath [97])
      (hotpState 16) tappedState True [⟨7, 0, 8⟩] :=
    tapped_secret .start sits₀ rfl ready₀ fits₀ h₁
  have run₂ : Tapped (plainEnv 16) (fun _ _ => []) (fun _ _ _ => False) (splitPath [97])
      (hotpState 16) reopenedState True [⟨7, 0, 8⟩] := by
    refine tapped_afterOpen run₁ fun e he => ?_
    rw [tapped_unique hopens run₁ he sits₁]
    exact hforemost
  have run₃ : Tapped (plainEnv 16) (fun _ _ => []) (fun _ _ _ => False) (splitPath [97])
      (hotpState 16) (afterTap (plainEnv 16) reopenedState).2 True [⟨8, 0, 9⟩, ⟨7, 0, 8⟩] :=
    tapped_secret run₂ sits₂ rfl ready₂ fits₂ h₂
  exact tapped_nodup (plainEnv 16) (fun _ _ => []) (fun _ _ _ => False) (splitPath [97]) hopens
    run₃

end Sunela.Hotp
