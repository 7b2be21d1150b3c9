import Sunela.Model.Payload
import Sunela.Verification.Support.PlainCrypt

/-! # Reading only the payload

The parser reads no byte outside the payload, and does what the model that sees the payload as a
list of items does. -/

namespace Sunela.Database

open Serial Storage Block Fields Entry

variable {payload b rest : Bytes} {p q n block ptr : ℕ} {c : UInt8} {seq : UInt16} {F : Tree}

/-! ## Reading -/

/-- The bytes are in the payload, from an address on. -/
def BytesAt (payload : Bytes) (q : ℕ) (b : Bytes) : Prop := b <+: payload.drop q

theorem BytesAt.head (h : BytesAt payload q (c :: b)) : payload[q]? = some c := by
  obtain ⟨r, hr⟩ := h
  have hget : (payload.drop q)[0]? = some c := by rw [← hr]; rfl
  rwa [List.getElem?_drop] at hget

theorem BytesAt.tail (h : BytesAt payload q (c :: b)) : BytesAt payload (q + 1) b := by
  obtain ⟨r, hr⟩ := h
  refine ⟨r, ?_⟩
  rw [← List.drop_drop, ← hr]
  rfl

theorem BytesAt.append (h : BytesAt payload q (b ++ rest)) : BytesAt payload (q + b.length) rest := by
  induction b generalizing q with
  | nil => exact h
  | cons c b ih =>
      have htail := ih (BytesAt.tail (b := b ++ rest) h)
      rwa [Nat.add_assoc, Nat.add_comm 1] at htail

theorem BytesAt.left (h : BytesAt payload q (b ++ rest)) : BytesAt payload q b :=
  (List.prefix_append b rest).trans h

theorem memchrAt_none (h : BytesAt payload q b) (hc : c ∉ b) :
    memchrAt payload c q b.length = some none := by
  induction b generalizing q with
  | nil => rfl
  | cons d b ih =>
      rw [List.mem_cons, not_or] at hc
      have hd : d ≠ c := fun heq => hc.1 heq.symm
      rw [List.length_cons, memchrAt, h.head]
      simp only [Option.bind_eq_bind, Option.bind_some, if_neg hd]
      exact ih h.tail hc.2

theorem memchrAt_some (h : BytesAt payload q (b ++ c :: rest)) (hc : c ∉ b) :
    memchrAt payload c q (b ++ c :: rest).length = some (some (q + b.length)) := by
  induction b generalizing q with
  | nil =>
      rw [List.nil_append, List.length_cons, memchrAt, BytesAt.head (b := rest) h]
      simp
  | cons d b ih =>
      rw [List.mem_cons, not_or] at hc
      have hd : d ≠ c := fun heq => hc.1 heq.symm
      rw [List.cons_append, List.length_cons, memchrAt, BytesAt.head (b := b ++ c :: rest) h]
      simp only [Option.bind_eq_bind, Option.bind_some, if_neg hd]
      rw [ih (BytesAt.tail (b := b ++ c :: rest) h) hc.2, List.length_cons, Nat.add_assoc,
        Nat.add_comm 1]

theorem memcpyAt_eq (h : BytesAt payload q b) : memcpyAt payload q b.length = some b := by
  induction b generalizing q with
  | nil => rfl
  | cons c b ih =>
      rw [List.length_cons, memcpyAt, h.head]
      simp only [Option.bind_eq_bind, Option.bind_some, ih h.tail]
      rfl

theorem allocString_eq {s : CString} (h : BytesAt payload q s.bytes) :
    allocString payload q s.bytes.length = some s := by
  rw [allocString, memcpyAt_eq h, Option.map_some, CString.ofBuffer_bytes]

/-- The names are compared no further than to the end of the first. -/
theorem strcmpAt_eq {s : CString} (h : BytesAt payload q (s.bytes ++ [0])) (t : CString) :
    strcmpAt payload q t.bytes = some (decide (t = s)) := by
  obtain ⟨a, ha⟩ := s
  obtain ⟨b, hb⟩ := t
  rw [show decide (CString.mk b hb = CString.mk a ha) = decide (b = a) by simp]
  dsimp only at h ⊢
  induction b generalizing q a with
  | nil =>
      cases a with
      | nil => simp [strcmpAt, BytesAt.head (b := []) h]
      | cons c a =>
          have hc : c ≠ 0 := fun heq => ha (by simp [heq])
          simp [strcmpAt, BytesAt.head (b := a ++ [0]) h, hc]
  | cons d b ih =>
      rw [List.mem_cons, not_or] at hb
      cases a with
      | nil => simp [strcmpAt, BytesAt.head (b := []) h, hb.1]
      | cons c a =>
          rw [List.mem_cons, not_or] at ha
          rw [strcmpAt, BytesAt.head (b := a ++ [0]) h]
          by_cases hcd : c = d
          · have hrest := ih a ha.2 (BytesAt.tail (b := a ++ [0]) h) hb.2
            simp [hcd, hrest]
          · have hdc : d ≠ c := fun heq => hcd heq.symm
            simp [hcd, hdc]

/-! ## The walk to the directory -/

theorem visitAt_eq {s : CString} (h : BytesAt payload q (s.bytes ++ [0]))
    (change : Tree → Option Tree) :
    visitAt payload q s.bytes.length ptr change F =
      F.visit DbEntry.name s (virtualEntry ptr s) change := by
  induction F with
  | nil =>
      rw [visitAt, allocString_eq h.left]
      rfl
  | node e ch nx _ ih =>
      rw [visitAt, strcmpAt_eq h e.name, Forest.visit]
      by_cases hname : e.name = s
      · simp [hname]
      · simp [hname, ih]

/-! ## Items -/

theorem tlvItemAt_eq (payload : Bytes) (p : ℕ) :
    tlvItemAt payload p = some ((tlvItem (payload.drop p)).map fun r =>
      ⟨r.1.type, r.1.data.length, p + 2, p + 2 + r.1.data.length⟩) := by
  have hlen := List.length_drop (l := payload) (i := p)
  unfold tlvItemAt
  match hd : payload.drop p with
  | [] =>
      rw [hd, List.length_nil] at hlen
      rw [if_pos (by omega)]
      rfl
  | [t] =>
      rw [hd, List.length_singleton] at hlen
      rw [if_pos (by omega)]
      rfl
  | t :: len :: r =>
      have hat : BytesAt payload p (t :: len :: r) := ⟨[], by rw [hd, List.append_nil]⟩
      rw [hd, List.length_cons, List.length_cons] at hlen
      rw [if_neg (by omega), hat.head, hat.tail.head]
      simp only [Option.bind_eq_bind, Option.bind_some, tlvItem]
      by_cases ht : t = ftEnd
      · simp [ht]
      · rw [if_neg ht, if_neg ht]
        by_cases hfit : r.length < len.toNat
        · rw [if_pos (by omega), if_pos hfit]
          rfl
        · have hsize : (r.take len.toNat).length = len.toNat := by
            rw [List.length_take]
            omega
          have hdata : (DbField.ofData t (r.take len.toNat)).data = r.take len.toNat :=
            DbField.ofData_data t (by rw [hsize]; exact len.toNat_lt)
          rw [if_neg (by omega), if_neg hfit]
          simp only [Option.map_some, hdata, hsize, DbField.ofData_type]
          rfl

/-- Where the value of an item and the next item are. -/
theorem tlvItem_at {f : DbField} (h : tlvItem (payload.drop p) = some (f, rest)) :
    BytesAt payload (p + 2) f.data ∧ payload.drop (p + 2 + f.data.length) = rest ∧
      p + 2 + f.data.length ≤ payload.length := by
  have hlen := List.length_drop (l := payload) (i := p)
  match hd : payload.drop p with
  | [] => simp [hd, tlvItem] at h
  | [t] => simp [hd, tlvItem] at h
  | t :: len :: r =>
      have hr : payload.drop (p + 2) = r := by rw [← List.drop_drop, hd]; rfl
      rw [hd, List.length_cons, List.length_cons] at hlen
      rw [hd, tlvItem] at h
      split_ifs at h with ht hfit
      obtain ⟨rfl, rfl⟩ := Prod.mk.inj (Option.some.inj h)
      have hsize : (r.take len.toNat).length = len.toNat := by
        rw [List.length_take]
        omega
      have hdata : (DbField.ofData t (r.take len.toNat)).data = r.take len.toNat :=
        DbField.ofData_data t (by rw [hsize]; exact len.toNat_lt)
      rw [hdata, hsize, BytesAt, hr]
      refine ⟨List.take_prefix _ _, ?_, by omega⟩
      rw [← List.drop_drop, hr]

/-- All fields are added that the payload has from an address on. -/
theorem addFieldsAt_eq {fields : List DbField} (hp : p ≤ payload.length) {rounds : ℕ}
    (hrounds : payload.length - p < rounds) (hn : payload.length - p ≤ n) :
    addFieldsAt payload p fields rounds =
      some ((tlvItems n (payload.drop p)).foldl (fun fs f => addField fs f.type f.data) fields) := by
  induction rounds generalizing p n fields with
  | zero => omega
  | succ rounds ih =>
      rw [addFieldsAt]
      by_cases hend : p = payload.length
      · rw [if_pos hend, hend, List.drop_length]
        cases n <;> rfl
      · rw [if_neg hend, tlvItemAt_eq]
        cases n with
        | zero => omega
        | succ n =>
            rw [tlvItems]
            cases hitem : tlvItem (payload.drop p) with
            | none => rfl
            | some r =>
                obtain ⟨f, r⟩ := r
                obtain ⟨hat, hrest, hle⟩ := tlvItem_at hitem
                simp only [Option.bind_eq_bind, Option.map_some, Option.bind_some,
                  memcpyAt_eq hat, List.foldl_cons]
                rw [ih hle (by omega) (n := n) (by omega), hrest]

/-! ## The record -/

/-- The record with the fields of the payload. -/
def itemRecord (block : ℕ) (seq : UInt16) (path : Path) (payload : Bytes) : Record :=
  { block, seq, path, fields := sortFields (tlvItems payload.length payload) }

theorem storeAt_eq (path : Path) (name : CString) :
    storeAt payload block seq ptr name F =
      storeRecord (itemRecord block seq path payload) ptr name F := by
  have hfields : addFieldsAt payload 0 [] (payload.length + 1) =
      some (sortFields (tlvItems payload.length payload)) :=
    addFieldsAt_eq (Nat.zero_le _) (by omega) (by omega)
  unfold storeAt storeRecord
  rw [hfields]
  cases F.child DbEntry.name name with
  | none => rfl
  | some d =>
      obtain ⟨de, ch⟩ := d
      simp only [itemRecord]
      by_cases hb : de.block = 0
      · by_cases hv : de.fields ≠ [] ∨ de.seq ≠ 0
        · simp [hb, hv]
        · simp [hb, hv]
      · by_cases hbehind : Behind 0x8000 seq.toNat de.seq.toNat
        · simp [hb, hbehind]
        · simp [hb, hbehind]

theorem splitPath_bytes_nul (s : CString) (b : Bytes) :
    splitPath (s.bytes ++ 0 :: b) = s :: splitPath b := by
  have hjoin : joinPath (s :: splitPath b) = s.bytes ++ 0 :: b := by
    rw [joinPath_cons s (splitPath_ne_nil b), joinPath_splitPath]
  rw [← hjoin, splitPath_joinPath (by simp)]

theorem splitPath_bytes_self (s : CString) : splitPath s.bytes = [s] :=
  splitPath_joinPath (p := [s]) (by simp)

/-- The loop splits the identifier as the model does. -/
theorem walkAt_eq (path : Path) (h : BytesAt payload q b) {rounds : ℕ} (hr : b.length < rounds) :
    walkAt payload block seq q b.length ptr F rounds =
      placeRecord (itemRecord block seq path payload) ptr (splitPath b) F := by
  induction rounds generalizing q b ptr F with
  | zero => omega
  | succ rounds ih =>
      rw [walkAt]
      by_cases hnul : 0 ∈ b
      · obtain ⟨a, r, rfl, ha⟩ := List.eq_append_cons_of_mem hnul
        let s : CString := ⟨a, ha⟩
        have hrest : BytesAt payload (q + a.length + 1) r := (BytesAt.append h).tail
        have hdir : BytesAt payload q (s.bytes ++ [0]) := by
          have hall : BytesAt payload q (s.bytes ++ [0] ++ r) := by rwa [List.append_assoc]
          exact hall.left
        have hlen : (a ++ 0 :: r).length - (a.length + 1) = r.length := by
          rw [List.length_append, List.length_cons]
          omega
        rw [List.length_append, List.length_cons] at hr
        rw [memchrAt_some h ha, show a ++ 0 :: r = s.bytes ++ 0 :: r from rfl,
          splitPath_bytes_nul]
        simp only [Option.bind_eq_bind, Option.bind_some, Nat.add_sub_cancel_left]
        rw [visitAt_eq hdir]
        obtain ⟨t, path', hpath⟩ := List.exists_cons_of_ne_nil (splitPath_ne_nil r)
        rw [hpath, placeRecord, ← hpath]
        congr 1
        funext ch
        rw [show (s.bytes ++ 0 :: r).length - (a.length + 1) = r.length from hlen]
        exact ih hrest (by omega)
      · have hname : splitPath b = [⟨b, hnul⟩] := splitPath_bytes_self ⟨b, hnul⟩
        rw [memchrAt_none h hnul, hname]
        simp only [Option.bind_eq_bind, Option.bind_some]
        rw [allocString_eq (s := ⟨b, hnul⟩) h, Option.bind_some, storeAt_eq path]
        rfl

/-- The parser reads nothing but the payload, ends, and stores what the model says. -/
theorem processPayloadAt_eq (db : Db) (block : ℕ) (seq : UInt16) (payload : Bytes) :
    processPayloadAt db block seq payload =
      match parseRecord block seq payload with
      | none => some (false, db)
      | some r => (placeRecord r db.fresh r.path db.entries).map fun F =>
          (true, { db with entries := F, fresh := db.fresh + r.path.length }) := by
  unfold processPayloadAt parseRecord
  rw [tlvItemAt_eq]
  simp only [List.drop_zero, Option.bind_eq_bind, Option.bind_some]
  cases hitem : tlvItem payload with
  | none => rfl
  | some r =>
      obtain ⟨id, rest⟩ := r
      obtain ⟨hat, -, -⟩ := tlvItem_at (p := 0) hitem
      by_cases htype : id.type = ftId
      · have hbytes : (payload.drop (0 + 2)).take id.data.length = id.data :=
          (List.prefix_iff_eq_take.mp hat).symm
        have hwalk : walkAt payload block seq (0 + 2) id.data.length db.fresh db.entries
            (id.data.length + 1) = _ :=
          walkAt_eq (splitPath id.data) hat (Nat.lt_succ_self id.data.length)
        simp only [Option.map_some, htype, ne_eq, not_true_eq_false, if_false, hbytes]
        rw [hwalk, itemRecord]
        generalize placeRecord _ db.fresh (splitPath id.data) db.entries = placed
        cases placed <;> rfl
      · simp [htype]

/-- The result tells the caller how to count the block. -/
theorem processPayloadAt_counts (db : Db) (block : ℕ) (seq : UInt16) (payload : Bytes) :
    processPayload db block seq payload = (processPayloadAt db block seq payload).map fun r =>
      if r.1 then r.2.addData 1 else r.2.addInvalid 1 := by
  rw [processPayloadAt_eq, processPayload]
  cases parseRecord block seq payload with
  | none => rfl
  | some r =>
      dsimp only
      cases placeRecord r db.fresh r.path db.entries <;> rfl

/-! ## What a payload says -/

/-- The complete items of a payload, up to the first one that ends the list or is cut off. -/
inductive Items : Bytes → List DbField → Prop where
  | stop {p : Bytes} (h : ∀ f rest, f.type ≠ ftEnd → p ≠ encodeField f ++ rest) : Items p []
  | item {f : DbField} {rest : Bytes} {fs : List DbField} (h : f.type ≠ ftEnd)
      (next : Items rest fs) : Items (encodeField f ++ rest) (f :: fs)

/-- The payload starts with a complete item for an identifier. -/
def BeginsWithId (payload id : Bytes) : Prop :=
  ∃ f rest, f.type = ftId ∧ f.data = id ∧ payload = encodeField f ++ rest

/-- The fields in order of their types, and those of one type in the order of the items. -/
structure Arranged (items fields : List DbField) : Prop where
  perm : fields.Perm items
  sorted : Fields.Sorted fields
  stable : ∀ type, (fields.filter fun f => f.type = type) = items.filter fun f => f.type = type

theorem tlvItem_eq_encodeField {f : DbField} (h : tlvItem payload = some (f, rest)) :
    payload = encodeField f ++ rest := by
  match payload with
  | [] => simp [tlvItem] at h
  | [t] => simp [tlvItem] at h
  | t :: len :: r =>
      rw [tlvItem] at h
      split_ifs at h with ht hfit
      obtain ⟨rfl, rfl⟩ := Prod.mk.inj (Option.some.inj h)
      have hsize : (r.take len.toNat).length = len.toNat := by
        rw [List.length_take]
        omega
      have hdata : (DbField.ofData t (r.take len.toNat)).data = r.take len.toNat :=
        DbField.ofData_data t (by rw [hsize]; exact len.toNat_lt)
      rw [encodeField, hdata, hsize, UInt8.ofNat_toNat, DbField.ofData_type]
      simp

theorem tlvItem_none (h : tlvItem payload = none) (f : DbField) (rest : Bytes)
    (hf : f.type ≠ ftEnd) : payload ≠ encodeField f ++ rest := by
  rintro rfl
  rw [tlvItem_encodeField hf] at h
  exact absurd h (Option.some_ne_none _)

theorem items_tlvItems (h : payload.length ≤ n) : Items payload (tlvItems n payload) := by
  induction n generalizing payload with
  | zero =>
      obtain rfl := List.eq_nil_of_length_eq_zero (Nat.le_zero.mp h)
      exact .stop fun f rest hf => tlvItem_none rfl f rest hf
  | succ n ih =>
      rw [tlvItems]
      cases hitem : tlvItem payload with
      | none => exact .stop (tlvItem_none hitem)
      | some r =>
          obtain ⟨f, rest⟩ := r
          have hpayload := tlvItem_eq_encodeField hitem
          have hlen := congrArg List.length hpayload
          rw [List.length_append, encodeField, List.length_cons] at hlen
          dsimp only
          rw [hpayload]
          exact .item (tlvItem_type hitem) (ih (by omega))

theorem filter_addField {fs : List DbField} (hs : Fields.Sorted fs) (f : DbField) (type : UInt8) :
    ((addField fs f.type f.data).filter fun g => g.type = type) =
      (fs.filter fun g => g.type = type) ++ [f].filter fun g => g.type = type := by
  induction fs with
  | nil => simp [addField]
  | cons g fs ih =>
      obtain ⟨hg, hsorted⟩ := sorted_cons.mp hs
      rw [addField]
      by_cases hlt : f.type < g.type
      · rw [if_pos hlt, DbField.ofData_self]
        by_cases hf : f.type = type
        · have hnone : ((g :: fs).filter fun g => g.type = type) = [] := by
            refine List.filter_eq_nil_iff.mpr fun x hx => ?_
            have hle : g.type ≤ x.type := by
              rcases List.mem_cons.mp hx with rfl | hx
              · exact UInt8.le_refl _
              · exact hg x hx
            have hne : x.type ≠ type := fun heq =>
              UInt8.lt_irrefl _ (UInt8.lt_of_lt_of_le hlt (heq.trans hf.symm ▸ hle))
            simpa using hne
          rw [hnone, List.filter_cons_of_pos (by simpa using hf), hnone]
          simp [hf]
        · rw [List.filter_cons_of_neg (by simpa using hf)]
          simp [hf]
      · rw [if_neg hlt, List.filter_cons, List.filter_cons, ih hsorted]
        split <;> rfl

theorem arranged_sortFields (items : List DbField) : Arranged items (sortFields items) where
  perm := sortFields_perm items
  sorted := sortFields_sorted items
  stable type := by
    have h : ∀ acc, Fields.Sorted acc →
        ((items.foldl (fun fs f => addField fs f.type f.data) acc).filter
          fun g => g.type = type) =
          (acc.filter fun g => g.type = type) ++ items.filter fun g => g.type = type := by
      induction items with
      | nil => simp
      | cons f items ih =>
          intro acc hacc
          rw [List.foldl_cons, ih _ (addField_sorted hacc _ _), filter_addField hacc,
            List.append_assoc, ← List.filter_append]
          rfl
    simpa [sortFields] using h [] Fields.Sorted.nil

/-! ## Records during a scan -/

theorem visit_self {s : CString} {new : DbEntry} {change : Tree → Option Tree} {e : DbEntry}
    {ch : Tree} (hc : F.child DbEntry.name s = some (e, ch)) (h : change ch = some ch) :
    F.visit DbEntry.name s new change = some F := by
  induction F with
  | nil => simp [Forest.child] at hc
  | node x ch' nx _ ih =>
      rw [Forest.child] at hc
      rw [Forest.visit]
      by_cases hname : x.name = s
      · rw [if_pos hname] at hc ⊢
        obtain ⟨rfl, rfl⟩ := Prod.mk.inj (Option.some.inj hc)
        rw [h]
        rfl
      · rw [if_neg hname] at hc ⊢
        rw [ih hc]
        rfl

/-- A record that is older than the entry of its path changes nothing. -/
theorem placeRecord_stale {r : Record} {fresh : ℕ} {path : Path} {s : Shown}
    (hl : look F path = some s) (hb : s.1 ≠ 0) (ho : Behind 0x8000 r.seq.toNat s.2.1.toNat) :
    placeRecord r fresh path F = some F := by
  induction path generalizing F fresh with
  | nil => simp [look, Forest.lookup] at hl
  | cons name path ih =>
      cases path with
      | nil =>
          rw [look_singleton] at hl
          obtain ⟨⟨de, ch⟩, hc, rfl⟩ := Option.map_eq_some_iff.mp hl
          simp only [view] at hb ho
          simp [placeRecord, storeRecord, hc, hb, ho]
      | cons t path =>
          rw [look_cons_cons] at hl
          rw [placeRecord]
          cases hc : F.child DbEntry.name name with
          | none =>
              have hnil : below name F = .nil := by rw [below, hc]; rfl
              rw [hnil] at hl
              cases path <;> simp [look, Forest.lookup, Forest.child] at hl
          | some d =>
              obtain ⟨de, ch⟩ := d
              have hch : below name F = ch := by rw [below, hc]; rfl
              rw [hch] at hl
              exact visit_self hc (ih hl)

/-- In every state of a scan, virtual entries carry nothing. -/
theorem foldlM_sound {env : Env} {f : Flash} {st st' : Settings} {db : Db} {k : ℕ}
    (h : ((dbBlocks env).take k).foldlM (openBlock env f) (dbOpenEmpty, st) = some (db, st')) :
    Sound db.entries := by
  obtain ⟨m, hm⟩ : ∃ m, (dbBlocks env).take k = List.range' reservedBlocks m := by
    rcases Nat.le_total k (env.storageBlocks - reservedBlocks) with hle | hle
    · exact ⟨_, List.take_range'_of_length_ge hle⟩
    · exact ⟨_, List.take_range'_of_length_le hle⟩
  rw [hm] at h
  obtain ⟨s, hs, hscan⟩ := @foldlM_scanned env f [] dbOpenEmpty st scanned_nil reservedBlocks m
    (by simp) (by simp) (Nat.le_refl _)
  obtain rfl := Option.some.inj (hs.symm.trans h)
  exact hscan.tree.sound (scanned_valid fun n hn => (List.mem_range'_1.mp hn).1)

/-- What a call does with a payload: it refuses it, leaves the newer entry as it is, or stores an
entry with its items. -/
structure Processed (db : Db) (block : ℕ) (seq : UInt16) (payload : Bytes) (result : Bool)
    (db' : Db) : Prop where
  refused : result = false ↔ ¬ ∃ id, BeginsWithId payload id
  unchanged : result = false → db' = db
  stored : result = true → ∃ id items, BeginsWithId payload id ∧ Items payload items ∧
    ((∃ s, look db.entries (splitPath id) = some s ∧ s.1 ≠ 0 ∧
        Behind 0x8000 seq.toNat s.2.1.toNat ∧ db'.entries = db.entries) ∨
      ∃ fields, look db'.entries (splitPath id) = some (block, seq, fields) ∧
        Arranged items fields)

theorem beginsWithId_iff : (∃ id, BeginsWithId payload id) ↔
    ∃ f rest, tlvItem payload = some (f, rest) ∧ f.type = ftId := by
  constructor
  · rintro ⟨_, f, rest, htype, -, rfl⟩
    have hf : f.type ≠ ftEnd := by rw [htype]; decide
    exact ⟨f, rest, tlvItem_encodeField hf rest, htype⟩
  · rintro ⟨f, rest, hitem, htype⟩
    exact ⟨f.data, f, rest, htype, rfl, tlvItem_eq_encodeField hitem⟩

/-- Whatever blocks have been scanned, a call of the parser ends, reads only the payload, fails no
assertion and stores just the items of the payload. -/
theorem processPayloadAt_processed {env : Env} {f : Flash} {st st' : Settings} {db : Db} {k : ℕ}
    (hscan : ((dbBlocks env).take k).foldlM (openBlock env f) (dbOpenEmpty, st) = some (db, st'))
    (block : ℕ) (seq : UInt16) (payload : Bytes) :
    ∃ result db', processPayloadAt db block seq payload = some (result, db') ∧
      Processed db block seq payload result db' := by
  have hsound := foldlM_sound hscan
  rw [processPayloadAt_eq]
  cases hitem : tlvItem payload with
  | none =>
      have hnone : ¬ ∃ id, BeginsWithId payload id := by
        rw [beginsWithId_iff, hitem]
        simp
      exact ⟨false, db, by rw [parseRecord, hitem], by simpa using hnone, fun _ => rfl, nofun⟩
  | some r =>
      obtain ⟨id, rest⟩ := r
      by_cases htype : id.type = ftId
      · let r : Record := itemRecord block seq (splitPath id.data) payload
        have hparse : parseRecord block seq payload = some r := by
          simp [parseRecord, hitem, htype, r, itemRecord]
        have hid : BeginsWithId payload id.data :=
          ⟨id, rest, htype, rfl, tlvItem_eq_encodeField hitem⟩
        obtain ⟨G, hG, hlook⟩ := placeRecord_look hsound r db.fresh (splitPath_ne_nil id.data)
        have hpath : r.path = splitPath id.data := rfl
        refine ⟨true, _, by rw [hparse]; dsimp only; rw [hpath, hG]; rfl, by simpa using ⟨_, hid⟩,
          nofun, fun _ => ⟨id.data, _, hid, items_tlvItems (Nat.le_refl _), ?_⟩⟩
        have hself := hlook _ (splitPath_ne_nil id.data)
        rw [placed, if_pos rfl] at hself
        by_cases hstale : ∃ s, look db.entries (splitPath id.data) = some s ∧ s.1 ≠ 0 ∧
            Behind 0x8000 seq.toNat s.2.1.toNat
        · obtain ⟨s, hs, hb, ho⟩ := hstale
          have hsame : placeRecord r db.fresh (splitPath id.data) db.entries = some db.entries :=
            placeRecord_stale hs hb ho
          exact .inl ⟨s, hs, hb, ho, Option.some.inj (hG.symm.trans hsame)⟩
        · refine .inr ⟨_, hself.trans (congrArg some ?_), arranged_sortFields _⟩
          unfold merge
          cases hold : look db.entries (splitPath id.data) with
          | none => rfl
          | some s =>
              dsimp only
              rw [if_neg fun h => hstale ⟨s, hold, h.1, h.2⟩]
              rfl
      · have hnone : ¬ ∃ id, BeginsWithId payload id := by
          rw [beginsWithId_iff, hitem]
          rintro ⟨f, r, h, hf⟩
          obtain ⟨rfl, -⟩ := Prod.mk.inj (Option.some.inj h)
          exact htype hf
        have hparse : parseRecord block seq payload = none := by
          simp [parseRecord, hitem, htype]
        exact ⟨false, db, by rw [hparse], by simpa using hnone, fun _ => rfl, nofun⟩

theorem processPayloadAt_processed_path :
    let db : Db := dbOpenEmpty
    let payload : Bytes := [1, 3, 100, 0, 97, 3, 1, 120, 5]
    ∃ result db', processPayloadAt db 9 1 payload = some (result, db') ∧
      Processed db 9 1 payload result db' :=
  @processPayloadAt_processed (plainEnv 16) (plainFlash []) ⟨false, false, false, 0⟩
    ⟨false, false, false, 0⟩ dbOpenEmpty 0 rfl 9 1 _

end Sunela.Database
