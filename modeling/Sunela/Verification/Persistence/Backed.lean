import Sunela.Verification.Failures.Held
import Sunela.Verification.Persistence.Reopen

/-! # Blocks that are remembered

While calls succeed, the block of each entry holds its data and the block of the settings holds
settings. Nothing is asked of the tree or of what the records say. -/

namespace Sunela.Database

open Program Storage Span Block Fields Entry

/-- There is data in the block. -/
def DataIn (env : Env) (f : Flash) (n : ℕ) : Prop :=
  ∃ seq payload, contents env.c f n = .data seq payload

/-- What is remembered can be found, and no two entries have a block in common. -/
structure Backed (env : Env) (db : Db) (f : Flash) : Prop where
  intact : db.erased.Intact
  erased : ∀ n ∈ db.erased.blocks, n ∈ dbBlocks env ∧ f.bad n = false ∧ f.cells n = erasedBlock
  nodup : db.erased.blocks.Nodup
  entries : ∀ e ∈ db.entries.entries, e.block = 0 ∨ e.block ∈ dbBlocks env ∧ DataIn env f e.block
  blocks : ∀ d ∈ db.entries.entries, ∀ e ∈ db.entries.entries, d.block = e.block → d.block ≠ 0 →
    d.ptr = e.ptr
  settings : ∀ n, db.settingsBlock = some n →
    n ∈ dbBlocks env ∧ ∃ seq payload, contents env.c f n = .settings seq payload

/-- Only blocks of the database have changed, and none of them held settings. -/
structure KeepsSettings (env : Env) (db : Db) (f : Flash) (db' : Db) (g : Flash) : Prop where
  block : db'.settingsBlock = db.settingsBlock
  settings : ∀ n seq payload, contents env.c f n = .settings seq payload →
    contents env.c g n = .settings seq payload
  cells : ∀ n, n ∉ dbBlocks env → g.cells n = f.cells n
  bad : g.bad = f.bad

variable {env : Env} {db : Db} {f g : Flash}

theorem KeepsSettings.refl (env : Env) (db : Db) (f : Flash) : KeepsSettings env db f db f :=
  ⟨rfl, fun _ _ _ h => h, fun _ _ => rfl, rfl⟩

theorem KeepsSettings.trans {db₁ db₂ : Db} {h : Flash} (h₁ : KeepsSettings env db f db₁ g)
    (h₂ : KeepsSettings env db₁ g db₂ h) : KeepsSettings env db f db₂ h :=
  ⟨h₂.block.trans h₁.block, fun n _ _ hn => h₂.settings n _ _ (h₁.settings n _ _ hn),
    fun n hn => (h₂.cells n hn).trans (h₁.cells n hn), h₂.bad.trans h₁.bad⟩

theorem KeepsSettings.set {db' : Db} {n : ℕ} (x : Block) (hb : db'.settingsBlock = db.settingsBlock)
    (hn : n ∈ dbBlocks env) (hs : ∀ seq payload, contents env.c f n ≠ .settings seq payload) :
    KeepsSettings env db f db' (f.set n x) := by
  refine ⟨hb, fun m seq payload hm => ?_, fun m hm => ?_, rfl⟩
  · have hne : m ≠ n := fun he => hs seq payload (he ▸ hm)
    rw [contents_of_cells_eq (Flash.set_of_ne f x hne) rfl]
    exact hm
  · exact Flash.set_of_ne f x fun he => hm (he ▸ hn)

theorem contents_of_erased {n : ℕ} (hb : f.bad n = false) (hc : f.cells n = erasedBlock) :
    contents env.c f n = .erased := by
  unfold contents storageReadBlock
  rw [hb, if_neg Bool.false_ne_true, hc, blockRead_erasedBlock]

theorem Taken.contents {n : ℕ} (ht : Taken env db f n) : contents env.c f n = .erased :=
  contents_of_erased ht.bad ht.cell

theorem Backed.contents_erased (h : Backed env db f) {n : ℕ} (hn : n ∈ db.erased.blocks) :
    contents env.c f n = .erased :=
  contents_of_erased (h.erased n hn).2.1 (h.erased n hn).2.2

/-! ## Steps -/

theorem Backed.same (h : Backed env db f) {db' : Db} (he : db'.entries = db.entries)
    (hr : db'.erased = db.erased) (hs : db'.settingsBlock = db.settingsBlock) :
    Backed env db' f := by
  obtain ⟨h1, h2, h3, h4, h5, h6⟩ := h
  refine ⟨?_, ?_, ?_, ?_, ?_, ?_⟩ <;> simp only [he, hr, hs] <;> assumption

theorem Backed.popped (h : Backed env db f) {n : ℕ} {rest : Spans} (hi : rest.Intact)
    (hb : db.erased.blocks = n :: rest.blocks) :
    Backed env (db.popped n rest) f ∧ Taken env (db.popped n rest) f n := by
  have hn := h.nodup
  rw [hb, List.nodup_cons] at hn
  obtain ⟨hm, hbad, hcell⟩ := h.erased n (by simp [hb])
  refine ⟨{ h with intact := hi, erased := fun m hm => ?_, nodup := hn.2 }, hm, hbad, hcell, hn.1⟩
  exact h.erased m (by rw [hb]; exact List.mem_cons_of_mem _ hm)

/-- A tree in which each entry has the block that it had. -/
theorem Backed.tree (h : Backed env db f) {F : Tree} {n : ℕ} {generation : UInt32}
    (hF : ∀ e ∈ F.entries, ∃ d ∈ db.entries.entries, e.ptr = d.ptr ∧ e.block = d.block) :
    Backed env { db with entries := F, fresh := n, generation } f := by
  refine { h with entries := fun e he => ?_, blocks := fun d hd e he hb hz => ?_ }
  · obtain ⟨d, hd, -, hb⟩ := hF e he
    rw [hb]
    exact h.entries d hd
  · obtain ⟨d', hd', hp, hb'⟩ := hF d hd
    obtain ⟨e', he', hp', hb''⟩ := hF e he
    rw [hp, hp']
    refine h.blocks d' hd' e' he' ?_ ?_
    · rw [← hb', ← hb'', hb]
    · rw [← hb']
      exact hz

/-- A block that has been taken gets the data of an entry. -/
theorem Backed.written (h : Backed env db f) {new p fresh : ℕ} {b : Block} {F : Tree}
    {generation : UInt32} (ht : Taken env db f new) (hd : DataIn env (f.set new b) new)
    (hF : ∀ e ∈ F.entries, (e.ptr = p ∧ e.block = new) ∨
      ∃ d ∈ db.entries.entries, e.ptr = d.ptr ∧ e.block = d.block) :
    Backed env { db with entries := F, fresh, generation } (f.set new b) := by
  have hother : ∀ m c, m ≠ new → contents env.c f m = c → contents env.c (f.set new b) m = c :=
    fun m c hm hc => (contents_of_cells_eq (Flash.set_of_ne f b hm) rfl).trans hc
  have hfree : ∀ d ∈ db.entries.entries, d.block ≠ new := by
    intro d hd he
    rcases h.entries d hd with hz | ⟨-, seq, payload, hc⟩
    · exact ne_zero_of_mem ht.mem (he ▸ hz)
    · rw [he, ht.contents] at hc
      cases hc
  refine ⟨h.intact, fun n hn => ?_, h.nodup, fun e he => ?_, fun d hd e he hb hz => ?_,
    fun n hn => ?_⟩
  · obtain ⟨h1, h2, h3⟩ := h.erased n hn
    have hne : n ≠ new := fun he => ht.erased (he ▸ hn)
    exact ⟨h1, h2, (Flash.set_of_ne f b hne).trans h3⟩
  · rcases hF e he with ⟨-, hb⟩ | ⟨d, hd, -, hb⟩
    · rw [hb]
      exact .inr ⟨ht.mem, by assumption⟩
    · rw [hb]
      refine (h.entries d hd).imp_right fun ⟨hm, seq, payload, hc⟩ => ⟨hm, seq, payload, ?_⟩
      exact hother _ _ (hfree d hd) hc
  · rcases hF d hd with ⟨hp, hbd⟩ | ⟨d', hd', hp, hbd⟩ <;>
      rcases hF e he with ⟨hp', hbe⟩ | ⟨e', he', hp', hbe⟩
    · exact hp.trans hp'.symm
    · exact absurd (hbe.symm.trans (hb.symm.trans hbd)) (hfree e' he')
    · exact absurd (hbd.symm.trans (hb.trans hbe)) (hfree d' hd')
    · rw [hp, hp']
      refine h.blocks d' hd' e' he' ?_ ?_
      · rw [← hbd, ← hbe, hb]
      · rw [← hbd]
        exact hz
  · obtain ⟨hm, seq, payload, hc⟩ := h.settings n hn
    refine ⟨hm, seq, payload, hother n _ (fun he => ?_) hc⟩
    rw [he, ht.contents] at hc
    cases hc

/-- A block that nothing refers to is deleted. -/
theorem Backed.discarded (h : Backed env db f) {n : ℕ} (hn : n ∉ db.erased.blocks)
    (he : ∀ e ∈ db.entries.entries, e.block ≠ n) (hs : db.settingsBlock ≠ some n) :
    Backed env db (f.set n zeroBlock) := by
  have hother : ∀ m, m ≠ n → contents env.c (f.set n zeroBlock) m = contents env.c f m :=
    fun m hm => contents_of_cells_eq (Flash.set_of_ne f zeroBlock hm) rfl
  refine ⟨h.intact, fun m hm => ?_, h.nodup, fun e hm => ?_, h.blocks, fun m hm => ?_⟩
  · obtain ⟨h1, h2, h3⟩ := h.erased m hm
    have hne : m ≠ n := fun heq => hn (heq ▸ hm)
    exact ⟨h1, h2, (Flash.set_of_ne f zeroBlock hne).trans h3⟩
  · refine (h.entries e hm).imp_right fun ⟨hb, seq, payload, hc⟩ => ⟨hb, seq, payload, ?_⟩
    rw [hother _ (he e hm)]
    exact hc
  · obtain ⟨hb, seq, payload, hc⟩ := h.settings m hm
    refine ⟨hb, seq, payload, ?_⟩
    rw [hother m fun heq => hs (heq ▸ hm)]
    exact hc

/-- Another storage that has the same blocks for the database. -/
theorem Backed.congr (h : Backed env db f) (hc : ∀ n ∈ dbBlocks env, g.cells n = f.cells n)
    (hb : g.bad = f.bad) : Backed env db g := by
  have hsame : ∀ n ∈ dbBlocks env, contents env.c g n = contents env.c f n := fun n hn =>
    contents_of_cells_eq (hc n hn) hb
  refine ⟨h.intact, fun n hn => ?_, h.nodup, fun e he => ?_, h.blocks, fun n hn => ?_⟩
  · obtain ⟨h1, h2, h3⟩ := h.erased n hn
    exact ⟨h1, by rw [hb]; exact h2, (hc n h1).trans h3⟩
  · refine (h.entries e he).imp_right fun ⟨hm, seq, payload, hd⟩ => ⟨hm, seq, payload, ?_⟩
    exact (hsame _ hm).trans hd
  · obtain ⟨hm, seq, payload, hs⟩ := h.settings n hn
    exact ⟨hm, seq, payload, (hsame n hm).trans hs⟩

/-- A database that has just been opened remembers what it has found. -/
theorem Opened.backed (ho : Opened env f db) : Backed env db f := by
  have hshown : ∀ c e, c ++ [e] ∈ db.entries.chains → e.block = 0 ∨
      ∃ r ∈ records env f, r.path = names (c ++ [e]) ∧ r.block = e.block := by
    intro c e hc
    obtain ⟨ch, hl, -⟩ := Forest.lookup_of_chain ho.distinct hc
    have hlook : Database.look db.entries (names (c ++ [e])) = some (view e) := by
      unfold Database.look names
      rw [hl]
      rfl
    rw [ho.look _ (by simp)] at hlook
    exact opened_block hlook
  refine ⟨ho.erased.intact, fun n hn => ?_,
    ho.erased.perm.nodup_iff.mpr (List.Nodup.filter _ List.nodup_range'), fun e he => ?_,
    fun d hd e he hb hz => ?_, ho.settings⟩
  · obtain ⟨hm, hc⟩ := List.mem_filter.mp (ho.erased.perm.mem_iff.mp hn)
    exact ⟨hm, contents_eq_erased (of_decide_eq_true hc)⟩
  · obtain ⟨c, hc⟩ := chain_of_entry he
    refine (hshown c e hc).imp_right fun ⟨r, hr, _, hb⟩ => ?_
    obtain ⟨hm, hrec⟩ := mem_records.mp hr
    rw [hb] at hm hrec
    exact ⟨hm, recordIn_contents hrec⟩
  · obtain ⟨c, hc⟩ := chain_of_entry hd
    obtain ⟨c', hc'⟩ := chain_of_entry he
    obtain ⟨r, hr, hp, hrb⟩ := (hshown c d hc).resolve_left hz
    have hz' : e.block ≠ 0 := by rwa [← hb]
    obtain ⟨r', hr', hp', hrb'⟩ := (hshown c' e hc').resolve_left hz'
    obtain rfl := List.inj_on_of_nodup_map (records_nodup env f) hr hr'
      (hrb.trans (hb.trans hrb'.symm))
    have heq := Forest.chain_unique ho.distinct hc hc' (hp.symm.trans hp')
    rw [(List.cons.inj (List.append_inj' heq rfl).2).1]

theorem wp_discard_backed {n : ℕ} :
    wp (anyContract fun _ _ _ => False) (discard env db n) (fun r g => r.1 = true ∧
      g = f.set n zeroBlock ∧ r.2.entries = db.entries ∧ r.2.erased = db.erased ∧
      r.2.settingsBlock = db.settingsBlock) f :=
  wp_mono (wp_and wp_discard_works wp_discard_tree) fun _ _ ⟨⟨hok, hg, he, _, hr⟩, ht⟩ =>
    ⟨hok, hg, he, hr, ht.settings⟩

/-- What has been written can be read. -/
theorem contents_packed {n : ℕ} {type : UInt8} {seq : UInt16} {payload : Bytes} {b : Block}
    (hp : Packed env type seq payload b) (hbad : f.bad n = false) :
    contents env.c (f.set n b) n = unpack (packed type seq (padded env.c payload)) := by
  obtain ⟨nonce, rk, hn, hk, hl, rfl⟩ := hp
  unfold contents storageReadBlock
  rw [Flash.set_bad, hbad, if_neg Bool.false_ne_true, Flash.set_self, blockRead_encrypt hn hk hl]

theorem dataIn_packed {n : ℕ} {seq : UInt16} {payload : Bytes} {b : Block}
    (hp : Packed env 4 seq payload b) (hbad : f.bad n = false) : DataIn env (f.set n b) n :=
  ⟨seq, _, (contents_packed hp hbad).trans (unpack_packed ..)⟩

/-! ## Calls -/

/-- After a success, what is remembered can be found and the settings are as before. -/
def Keeps (env : Env) (db : Db) (f : Flash) (r : Bool × Db) (g : Flash) : Prop :=
  r.1 = true → Backed env r.2 g ∧ KeepsSettings env db f r.2 g

theorem wp_updateEntry_backed (hl : Linked db.entries) (h : Backed env db f) {p new : ℕ}
    (ht : Taken env db f new) :
    wp (anyContract fun _ _ _ => False) (updateEntry env db p new) (Keeps env db f) f := by
  unfold updateEntry
  cases hfind : find p db.entries with
  | none => trivial
  | some res =>
      obtain ⟨de, ch⟩ := res
      obtain ⟨hde, hptr⟩ := mem_entries_of_find hfind
      have hmem : ∀ e, e ∈ (modify p (renewed new) db.entries).entries ↔
          e = renewed new de ∨ (e ∈ db.entries.entries ∧ e.ptr ≠ p) := fun e =>
        mem_modify hl hde hptr
      simp only [wp_bind]
      refine wp_writeEntry (lenient_works f) ht.cell (fun _ _ _ _ => trivial) (fun _ => ?_)
        (fun b payload _ _ hp => ?_) fun _ _ _ _ _ hx => hx.elim
      · simp only [Bool.not_false, if_true, wp_bind]
        exact wp_mono wp_discard_backed fun _ _ _ hf => absurd hf Bool.false_ne_true
      · have hwritten : Backed env { db with entries := modify p (renewed new) db.entries }
            (f.set new b) := by
          refine h.written (p := p) ht (dataIn_packed hp ht.bad) fun e he => ?_
          rcases (hmem e).mp he with rfl | ⟨he, -⟩
          · exact .inl ⟨hptr, rfl⟩
          · exact .inr ⟨e, he, rfl, rfl⟩
        have hkeeps : KeepsSettings env db f { db with
            entries := modify p (renewed new) db.entries } (f.set new b) :=
          .set b rfl ht.mem fun seq payload hc => by
            rw [ht.contents] at hc
            cases hc
        simp only [Bool.not_true, Bool.false_eq_true, if_false]
        split
        · next hz =>
            obtain ⟨hm, seq, old, hc⟩ := (h.entries de hde).resolve_left hz
            have hne : de.block ≠ new := fun he => by
              rw [he, ht.contents] at hc
              cases hc
            have hc' : contents env.c (f.set new b) de.block = .data seq old :=
              (contents_of_cells_eq (Flash.set_of_ne f b hne) rfl).trans hc
            have hleft := hwritten.discarded (n := de.block) (fun he => ?_) (fun e he hb => ?_)
              fun hs => ?_
            · rw [wp_bind]
              refine wp_mono wp_discard_backed ?_
              rintro ⟨done, db₂⟩ g ⟨rfl, rfl, hentries, herased, hsettings⟩ -
              refine ⟨hleft.same hentries herased hsettings, hkeeps.trans ?_⟩
              refine .set zeroBlock hsettings hm fun seq' payload' hs => ?_
              rw [hc'] at hs
              cases hs
            · rw [h.contents_erased he] at hc
              cases hc
            · rcases (hmem e).mp he with rfl | ⟨he, hep⟩
              · exact hne hb.symm
              · have hz' : e.block ≠ 0 := hb ▸ hz
                exact hep ((h.blocks e he de hde hb hz').trans hptr)
            · obtain ⟨-, seq', payload', hs⟩ := h.settings _ hs
              rw [hc] at hs
              cases hs
        · exact fun _ => ⟨hwritten.same rfl rfl rfl, hkeeps.trans ⟨rfl, fun _ _ _ h => h,
            fun _ _ => rfl, rfl⟩⟩
theorem Keeps.of_keeps {db₁ : Db} {r : Bool × Db} (h : Keeps env db₁ f r g)
    (h₁ : KeepsSettings env db f db₁ f) : Keeps env db f r g := fun hr =>
  ⟨(h hr).1, h₁.trans (h hr).2⟩

/-- A change to the tree that leaves the blocks of the entries alone. -/
theorem Backed.retouched (h : Backed env db f) {p : ℕ} {g : DbEntry → DbEntry}
    (hptr : ∀ e, (g e).ptr = e.ptr) (hblock : ∀ e, (g e).block = e.block) {F : Tree}
    {generation : UInt32} (hF : F.siblings.Perm (modify p g db.entries).siblings) :
    Backed env { db with entries := F, generation } f := by
  refine h.tree (n := db.fresh) fun e he => ?_
  have hm := (Forest.entries_perm (Forest.chains_perm hF)).mem_iff.mp he
  rw [modify_entries] at hm
  obtain ⟨d, hd, rfl⟩ := List.mem_map.mp hm
  refine ⟨d, hd, ?_⟩
  split
  · exact ⟨hptr d, hblock d⟩
  · exact ⟨rfl, rfl⟩

theorem wp_changeEntry_backed (hl : Linked db.entries) (h : Backed env db f) {p : ℕ}
    {g : DbEntry → DbEntry} {change : Db → Fw Db} (hptr : ∀ e, (g e).ptr = e.ptr)
    (hblock : ∀ e, (g e).block = e.block)
    (hchange : ∀ db, ∃ db', change db = .ret db' ∧ Retouched (modify p g db.entries) db db') :
    wp (anyContract fun _ _ _ => False) (changeEntry env db p change) (Keeps env db f) f := by
  unfold changeEntry
  cases find p db.entries with
  | none => trivial
  | some r =>
      simp only []
      split
      · obtain ⟨db', hc, G, generation, hperm, rfl⟩ := hchange db
        rw [hc]
        exact fun _ => ⟨h.retouched hptr hblock hperm, rfl, fun _ _ _ h => h, fun _ _ => rfl, rfl⟩
      · rw [wp_bind]
        refine wp_mono (wp_getErasedBlock_taken h.intact) ?_
        rintro ⟨new, db₁⟩ f₁ htaken
        cases new with
        | none => exact fun hf => absurd hf Bool.false_ne_true
        | some new =>
            obtain ⟨rfl, rest, rfl, hi, hb⟩ := htaken new rfl
            obtain ⟨h₁, ht⟩ := h.popped hi hb
            obtain ⟨db₂, hc, G, generation, hperm, rfl⟩ := hchange (db.popped new rest)
            have hlinked : Linked G :=
              Linked.perm (hl.modify hptr) (Forest.chains_perm hperm).symm
            simp only [hc, Prog.ret_bind]
            refine wp_mono (wp_updateEntry_backed hlinked (h₁.retouched hptr hblock hperm)
              ⟨ht.mem, ht.bad, ht.cell, ht.erased⟩) fun r g hr => ?_
            have hpopped : KeepsSettings env db f₁ { db.popped new rest with
                entries := G, generation } f₁ := ⟨rfl, fun _ _ _ h => h, fun _ _ => rfl, rfl⟩
            exact hr.of_keeps hpopped

theorem wp_dbEntryDeferUpdate_backed (hl : Linked db.entries) (h : Backed env db f) {p : ℕ}
    {defer : Bool} :
    wp (anyContract fun _ _ _ => False) (dbEntryDeferUpdate env db p defer) (Keeps env db f)
      f := by
  have hfinish : ∀ db g, Backed env db g →
      Backed env { db with entries := modify p (fun e => { e with defer }) db.entries } g :=
    fun db g h => h.retouched (g := fun e => { e with defer }) (fun _ => rfl) (fun _ => rfl)
      (List.Perm.refl _)
  unfold dbEntryDeferUpdate
  cases find p db.entries with
  | none => trivial
  | some r =>
      simp only []
      split
      · exact fun _ => ⟨hfinish db f h, rfl, fun _ _ _ h => h, fun _ _ => rfl, rfl⟩
      · rw [wp_bind]
        refine wp_mono (wp_getErasedBlock_taken h.intact) ?_
        rintro ⟨new, db₁⟩ f₁ htaken
        cases new with
        | none => exact fun hf => absurd hf Bool.false_ne_true
        | some new =>
            obtain ⟨rfl, rest, rfl, hi, hb⟩ := htaken new rfl
            obtain ⟨h₁, ht⟩ := h.popped hi hb
            have hl₁ : Linked (db.popped new rest).entries := hl
            simp only [wp_bind]
            refine wp_mono (wp_updateEntry_backed hl₁ h₁ ht) ?_
            rintro ⟨ok, db₂⟩ g hr
            cases ok with
            | false => exact fun hf => absurd hf Bool.false_ne_true
            | true =>
                obtain ⟨h₂, hk⟩ := hr rfl
                exact fun _ => ⟨hfinish db₂ g h₂, hk.block, hk.settings, hk.cells, hk.bad⟩

theorem wp_dbNewEntry_backed (h : Backed env db f) {name : CString} :
    wp (anyContract fun _ _ _ => False) (dbNewEntry env db name) (fun r g =>
      r.1.isSome = true → Backed env r.2 g ∧ KeepsSettings env db f r.2 g) f := by
  unfold dbNewEntry
  rw [wp_bind]
  refine wp_mono (wp_getErasedBlock_taken h.intact) ?_
  rintro ⟨new, db₁⟩ f₁ htaken
  cases new with
  | none => exact fun hf => absurd hf Bool.false_ne_true
  | some new =>
      obtain ⟨rfl, rest, rfl, hi, hb⟩ := htaken new rfl
      obtain ⟨h₁, ht⟩ := h.popped hi hb
      simp only [wp_bind]
      refine wp_rndBytes (lenient_works f₁) fun seq _ => ?_
      refine wp_newId (lenient_works f₁) trivial fun id _ => ?_
      obtain ⟨db₂, hsort, G, generation, hperm, rfl⟩ := sorted_eq
        { (db.popped new rest).changed.changed with
          entries := newEntry db.dir ⟨db.fresh, name, seqOfBytes (seq.getD 0 0) (seq.getD 1 0),
            new, false, addField [] ftId id⟩ db.entries
          fresh := db.fresh + 1 }
      simp only [Db.popped, Db.changed] at hsort ⊢
      rw [hsort]
      simp only [wp_ret]
      refine wp_writeEntry (lenient_works f₁) ht.cell (fun _ _ _ _ => trivial) (fun _ => ?_)
        (fun b payload _ _ hp => ?_) fun _ _ _ _ _ hx => hx.elim
      · simp only [Bool.false_eq_true, if_false, wp_bind]
        exact wp_mono wp_discard_backed fun _ _ _ hf => absurd hf Bool.false_ne_true
      · have hwritten : Backed env { db.popped new rest with
            entries := G, fresh := db.fresh + 1, generation } (f₁.set new b) := by
          refine h₁.written (p := db.fresh) ht (dataIn_packed hp ht.bad) fun e he => ?_
          have hm := (Forest.entries_perm (Forest.chains_perm hperm)).mem_iff.mp he
          rcases mem_newEntry hm with rfl | he
          · exact .inl ⟨rfl, rfl⟩
          · exact .inr ⟨e, he, rfl, rfl⟩
        refine fun _ => ⟨hwritten.same rfl rfl rfl, .set b rfl ht.mem fun seq payload hc => ?_⟩
        rw [ht.contents] at hc
        cases hc

theorem ptr_ne_of_mem_remove {F : Tree} {p : ℕ} {e : DbEntry}
    (he : e ∈ (F.remove (DbEntry.is p)).entries) : e.ptr ≠ p := by
  obtain ⟨c, hc, hl⟩ := Forest.mem_entries_iff.mp he
  rw [Forest.chains_remove, List.mem_filter] at hc
  have hall := List.all_eq_true.mp hc.2 e (List.mem_of_getLast? hl)
  intro hp
  rw [is_iff.mpr hp] at hall
  exact Bool.false_ne_true hall

theorem wp_dbDeleteEntry_backed (h : Backed env db f) {p : ℕ} :
    wp (anyContract fun _ _ _ => False) (dbDeleteEntry env db p) (Keeps env db f) f := by
  unfold dbDeleteEntry
  cases hfind : find p db.entries with
  | none => trivial
  | some res =>
      obtain ⟨de, ch⟩ := res
      obtain ⟨hde, hp⟩ := mem_entries_of_find hfind
      obtain ⟨db', hsort, G, generation, hperm, rfl⟩ :=
        sorted_eq { db with entries := db.entries.remove (DbEntry.is p) }
      have hmem : ∀ e ∈ G.entries, e ∈ (db.entries.remove (DbEntry.is p)).entries := fun e he =>
        (Forest.entries_perm (Forest.chains_perm hperm)).mem_iff.mp he
      have hsub : Backed env { db with entries := G, fresh := db.fresh, generation } f :=
        h.tree fun e he => ⟨e, mem_remove (hmem e he), rfl, rfl⟩
      simp only [hsort, Prog.ret_bind, wp_bind]
      rcases h.entries de hde with hz | ⟨hm, seq, payload, hc⟩
      · rw [hz]
        simp [discard, blockDelete, reservedBlocks, padBlocks, anyContract]
      · have hleft := hsub.discarded (n := de.block) (fun he => ?_) (fun e he hb => ?_)
          fun hs => ?_
        · refine wp_mono wp_discard_backed ?_
          rintro ⟨done, db₂⟩ g ⟨rfl, rfl, hentries, herased, hsettings⟩ -
          refine ⟨hleft.same hentries herased hsettings, ?_⟩
          refine .set zeroBlock hsettings hm fun seq' payload' hs => ?_
          rw [hc] at hs
          cases hs
        · rw [h.contents_erased he] at hc
          cases hc
        · have hz : e.block ≠ 0 := hb ▸ ne_zero_of_mem hm
          have hep := h.blocks e (mem_remove (hmem e he)) de hde hb hz
          exact ptr_ne_of_mem_remove (hmem e he) (hep.trans hp)
        · obtain ⟨-, seq', payload', hs⟩ := h.settings _ hs
          rw [hc] at hs
          cases hs

theorem wp_exec_backed (hheld : Held db) (h : Backed env db f) {c : Call}
    (hc : ∀ seq payload, c ≠ .updateSettings seq payload) :
    wp (anyContract fun _ _ _ => False) (c.exec env db) (Keeps env db f) f := by
  have hl := hheld.linked
  cases c with
  | newEntry name =>
      simp only [Call.exec, wp_bind]
      exact wp_mono (wp_dbNewEntry_backed h) fun _ _ hr => hr
  | changeField p type data =>
      exact wp_changeEntry_backed (g := withField type data) hl h (fun _ => rfl) (fun _ => rfl)
        fun db => changeField_eq db p type data
  | deleteField p i =>
      simp only [Call.exec, dbDeleteField]
      cases find p db.entries with
      | none => trivial
      | some r =>
          simp only []
          split
          · trivial
          · exact wp_changeEntry_backed (g := withoutField i) hl h (fun _ => rfl) (fun _ => rfl)
              fun db => deleteField_eq db p i
  | deleteEntry p => exact wp_dbDeleteEntry_backed h
  | deferUpdate p defer => exact wp_dbEntryDeferUpdate_backed hl h
  | updateSettings seq payload => exact absurd rfl (hc seq payload)
  | chdir dir => exact fun _ => ⟨h.same rfl rfl rfl, rfl, fun _ _ _ h => h, fun _ _ => rfl, rfl⟩
  | tsort =>
      obtain ⟨db', hsort, G, generation, hperm, rfl⟩ := sorted_eq db
      simp only [Call.exec, hsort, Prog.ret_bind]
      refine fun _ => ⟨h.tree (n := db.fresh) fun e he => ⟨e, ?_, rfl, rfl⟩, rfl,
        fun _ _ _ h => h, fun _ _ => rfl, rfl⟩
      exact (Forest.entries_perm (Forest.chains_perm hperm)).mem_iff.mp he

/-- What a settings update has stored. -/
structure Updated (env : Env) (db : Db) (f : Flash) (seq : UInt16) (payload : Bytes) (db' : Db)
    (g : Flash) : Prop where
  backed : Backed env db' g
  stored : ∃ n ∈ dbBlocks env, db'.settingsBlock = some n ∧
    contents env.c g n = .settings seq (padded env.c payload)
  cells : ∀ n, n ∉ dbBlocks env → g.cells n = f.cells n
  bad : g.bad = f.bad

theorem wp_dbUpdateSettings_backed (h : Backed env db f) {seq : UInt16} {payload : Bytes} :
    wp (anyContract fun _ _ _ => False) (dbUpdateSettings env db seq payload)
      (fun r g => r.1 = true → Updated env db f seq payload r.2 g) f := by
  unfold dbUpdateSettings
  rw [wp_bind]
  refine wp_mono (wp_getErasedBlock_taken h.intact) ?_
  rintro ⟨new, db₁⟩ f₁ htaken
  cases new with
  | none => exact fun hf => absurd hf Bool.false_ne_true
  | some new =>
      obtain ⟨rfl, rest, rfl, hi, hb⟩ := htaken new rfl
      obtain ⟨h₁, ht⟩ := h.popped hi hb
      simp only [wp_bind, blockWrite]
      split
      · trivial
      split
      · trivial
      · refine wp_writePacked (lenient_works f₁) ht.cell (fun _ _ => trivial) (fun b hp => ?_)
          fun _ _ _ hx => hx.elim
        have hnew : contents env.c (f₁.set new b) new = .settings seq (padded env.c payload) :=
          (contents_packed hp ht.bad).trans (unpack_packed ..)
        have hother : ∀ m, m ≠ new → contents env.c (f₁.set new b) m = contents env.c f₁ m :=
          fun m hm => contents_of_cells_eq (Flash.set_of_ne f₁ b hm) rfl
        have houtside : ∀ m, m ∉ dbBlocks env → (f₁.set new b).cells m = f₁.cells m :=
          fun m hm => Flash.set_of_ne f₁ b fun he => hm (he ▸ ht.mem)
        have hwritten : Backed env { db.popped new rest with settingsBlock := some new }
            (f₁.set new b) := by
          refine { h₁ with erased := fun n hn => ?_, entries := fun e he => ?_,
                           settings := fun n hn => ?_ }
          · obtain ⟨h1, h2, h3⟩ := h₁.erased n hn
            have hne : n ≠ new := fun he => ht.erased (he ▸ hn)
            exact ⟨h1, h2, (Flash.set_of_ne f₁ b hne).trans h3⟩
          · rcases h₁.entries e he with hz | ⟨hm, seq', payload', hc⟩
            · exact .inl hz
            · refine .inr ⟨hm, seq', payload', ?_⟩
              rw [hother _ fun heq => ?_]
              · exact hc
              · rw [heq, ht.contents] at hc
                cases hc
          · obtain rfl := Option.some.inj hn
            exact ⟨ht.mem, seq, _, hnew⟩
        simp only [if_true]
        cases ho : ((db.popped new rest).addSpecial 1).settingsBlock with
        | none =>
            exact fun _ => ⟨hwritten.same rfl rfl rfl, ⟨new, ht.mem, rfl, hnew⟩, houtside, rfl⟩
        | some old =>
            obtain ⟨hm, seq', payload', hc⟩ := h₁.settings old ho
            have hne : old ≠ new := fun he => by
              rw [he, ht.contents] at hc
              cases hc
            have hleft := hwritten.discarded (n := old) (fun he => ?_) (fun e he hb => ?_)
              fun hs => hne (Option.some.inj hs).symm
            · simp only [wp_bind]
              refine wp_mono wp_discard_backed ?_
              rintro ⟨done, db₂⟩ g ⟨rfl, rfl, hentries, herased, hsettings⟩ -
              refine ⟨hleft.same hentries herased rfl, ⟨new, ht.mem, rfl, ?_⟩, fun n hn => ?_, rfl⟩
              · rw [contents_of_cells_eq (Flash.set_of_ne _ zeroBlock hne.symm) rfl]
                exact hnew
              · have hno : n ≠ old := fun he => hn (he ▸ hm)
                exact (Flash.set_of_ne _ zeroBlock hno).trans (houtside n hn)
            · rw [h₁.contents_erased he] at hc
              cases hc
            · rcases h₁.entries e he with hz | ⟨-, seq, payload, hd⟩
              · exact ne_zero_of_mem hm (hb.symm.trans hz)
              · rw [hb, hc] at hd
                cases hd

/-! ## Runs -/

/-- The states that calls lead to if all of them succeed. The settings are not among the calls,
and an operation that is made of calls is successful if they are. -/
inductive Succeeding (env : Env) (s : State) : State → Prop where
  | start : Succeeding env s s
  | next {t u : State} {c : Call} (run : Succeeding env s t)
      (hc : ∀ seq payload, c ≠ .updateSettings seq payload)
      (ends : Ends Works (fun db => c.exec env db) t true u) : Succeeding env s u

variable {s t u : State}

theorem Succeeding.trans (h : Succeeding env s t) (h' : Succeeding env t u) :
    Succeeding env s u := by
  induction h' with
  | start => exact h
  | next _ hc ends ih => exact .next ih hc ends

theorem succeeding_backed (hheld : Held s.db) (h : Backed env s.db s.flash)
    (hr : Succeeding env s t) : Held t.db ∧ Backed env t.db t.flash ∧
      KeepsSettings env s.db s.flash t.db t.flash := by
  induction hr with
  | start => exact ⟨hheld, h, .refl _ _ _⟩
  | @next t u c _ hc ends ih =>
      obtain ⟨hheld, hback, hkeeps⟩ := ih
      have hpost := wp_returns (K := anyContract fun _ _ _ => False)
        (wp_and (wp_exec_held hheld) (wp_exec_backed hheld hback hc)) ends
      obtain ⟨hback', hkeeps'⟩ := hpost.2 rfl
      exact ⟨hpost.1, hback', hkeeps.trans hkeeps'⟩

theorem patchOne_succeeding {p : ℕ} {newPrefix : Bytes} {k : ℕ}
    (h : Ends Works (fun db => patchOne env db p newPrefix k) s true t) : Succeeding env s t := by
  have hcall : ∀ data, Ends Works (fun db => dbChangeField env db p ftId data) s true t →
      Succeeding env s t := fun data he =>
    .next (c := .changeField p ftId data) .start (by simp) he
  change Returns Works (patchOne env s.db p newPrefix k) s.flash (true, t.db) t.flash at h
  unfold patchOne at h
  split at h
  · cases h
  · split at h
    · cases h
    · split at h
      · cases h
      · split at h
        · exact hcall _ h
        · split at h
          · cases h
          · exact hcall _ h

theorem patchRecursive_succeeding {newPrefix : Bytes} {k : ℕ} {F : Tree}
    (h : Ends Works (fun db => patchRecursive env newPrefix k F db) s true t) :
    Succeeding env s t := by
  induction F generalizing s t with
  | nil =>
      obtain ⟨he, hf⟩ := reaches_ret.mp h
      obtain ⟨-, hdb⟩ := Prod.mk.inj (Prog.ret.inj he)
      rw [show t = s by cases s; cases t; simp_all]
      exact .start
  | node e ch nx hch hnx =>
      obtain ⟨⟨ok, db₁⟩, f₁, hone, h⟩ := returns_bind h
      cases ok with
      | false =>
          obtain ⟨he, -⟩ := reaches_ret.mp h
          simp at he
      | true =>
          obtain ⟨⟨ok, db₂⟩, f₂, hbelow, h⟩ := returns_bind h
          cases ok with
          | false =>
              obtain ⟨he, -⟩ := reaches_ret.mp h
              simp at he
          | true =>
              have h₁ := patchOne_succeeding (t := ⟨db₁, f₁⟩) hone
              have h₂ := hch (s := ⟨db₁, f₁⟩) (t := ⟨db₂, f₂⟩) hbelow
              exact (h₁.trans h₂).trans (hnx (s := ⟨db₂, f₂⟩) h)

/-- A rename that succeeds has made calls that succeed. -/
theorem rename_succeeding {p : ℕ} {name : CString}
    (h : Ends Works (fun db => dbRename env db p name) s true t) : Succeeding env s t := by
  change Returns Works (dbRename env s.db p name) s.flash (true, t.db) t.flash at h
  unfold dbRename at h
  split at h
  · cases h
  · split at h
    · cases h
    · split at h
      · cases h
      · split at h
        · cases h
        · exact patchRecursive_succeeding h

end Sunela.Database
