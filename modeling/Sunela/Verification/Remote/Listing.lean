import Sunela.Verification.Remote.Polls
import Sunela.Verification.Support.PlainCrypt
import Sunela.Verification.Support.RemoteAccount

/-! # Remote listings

The host is handed the names of all entries, or the fields of one, block by block and in order.
This takes that no name is empty, as an empty block would end the response, and that the fields
have known types. -/

namespace Sunela.Remote

open Program Fields Entry

variable {db : Database.Db} {h : Host} {w v : Wire} {s t : Sys Host}

/-- What the host has been handed is the beginning of the answer to its request, and all of it
once the end marker has been handed out. -/
structure Delivers (db : Database.Db) (w : Wire) : Prop where
  begun : ∀ resp, Answers db w.book.sent resp → w.book.delivered <+: resp ++ [[]]
  complete : w.host = .ready → ∀ resp, Answers db w.book.sent resp →
    w.book.delivered = resp ++ [[]]

theorem visible_ne_nil {f : DbField} {b : Bytes} (h : visible f = some b) : b ≠ [] := by
  unfold visible at h
  split_ifs at h
  · obtain rfl := Option.some.inj h
    simp
  · obtain rfl := Option.some.inj h
    simp

/-- No block of an answer is taken for the end marker. -/
theorem nil_notMem_answer (hl : ∀ e ∈ db.entries.tops, Listable e) {rc resp : List Bytes}
    (h : Answers db rc resp) : [] ∉ resp := by
  intro hmem
  cases h with
  | ls op =>
      obtain ⟨e, he, hnil⟩ := List.mem_map.mp hmem
      exact (hl e he).name hnil
  | «show» op find =>
      obtain ⟨f, -, hf⟩ := List.mem_filterMap.mp hmem
      exact visible_ne_nil hf rfl

/-- A list that ends with the end marker and is the beginning of another one is all of it. -/
theorem ended_eq {l resp : List Bytes} (hl : Ended l) (hp : l <+: resp ++ [[]])
    (hresp : [] ∉ resp) : l = resp ++ [[]] := by
  obtain ⟨blocks, -, rfl⟩ := hl
  rcases List.prefix_concat_iff.mp hp with heq | hpre
  · exact heq
  · exact absurd (hpre.subset (by simp)) hresp

theorem Held.delivers (hw : Held True (listing db) w)
    (hl : ∀ e ∈ db.entries.tops, Listable e) : Delivers db w := by
  have hfaithful := hw.faithful
  have hruled : (listing db).holds w.book.received w.book.deposited := by
    obtain ⟨ph, more, -, hat⟩ := hw
    exact hat.ruled
  have hdeposited : ∀ resp, Answers db w.book.sent resp → w.book.deposited <+: resp ++ [[]] := by
    intro resp hresp
    by_cases hnil : w.book.deposited = []
    · rw [hnil]
      exact List.nil_prefix
    · exact hruled resp ((hfaithful.answered hnil).1 ▸ hresp)
  refine ⟨fun resp hresp => hfaithful.delivered.trans (hdeposited resp hresp), ?_⟩
  intro hready resp hresp
  have hsent : w.book.sent ≠ [] := by
    obtain ⟨b, hb⟩ := answers_pair hresp
    simp [hb]
  obtain ⟨-, -, hall, hended⟩ := hfaithful.finished hready hsent
  rw [hall]
  exact ended_eq hended (hdeposited resp hresp) (nil_notMem_answer hl hresp)

theorem Complies.handles {e : HostEvent} (hw : Held True (listing db) s.wire)
    (he : Complies s e) (hv : s.wire.event e = some v) : Handles s.wire v := by
  have hadmitted : Admitted s e := by
    refine ⟨he, ?_⟩
    rintro data rfl
    exact event_admits hv
  exact hadmitted.handles hw hv

/-- The database with one record, which consists of a name. -/
def recordedDb (name : CString) : Database.Db :=
  { Database.dbOpenEmpty with
    stats := ⟨0, 0, 0, 0, 0, 1, 0⟩
    entries := .node ⟨0, name, 1, 8, false, [Database.nameField name.bytes]⟩ .nil .nil
    fresh := 1 }

def namedA : CString := .ofBuffer [97]

def recordedFlash (name : CString) : Storage.Flash :=
  Database.plainFlash [(8, 1, [Database.nameField name.bytes])]

theorem afterOpen_recorded :
    (Database.afterOpen (Database.plainEnv 9) (recordedFlash namedA)).db = recordedDb namedA ∧
      (Database.afterOpen (Database.plainEnv 9) (recordedFlash .empty)).db =
        recordedDb .empty := by
  decide +kernel

theorem dbOpen_recorded {name : CString}
    (h : (Database.afterOpen (Database.plainEnv 9) (recordedFlash name)).db = recordedDb name) :
    ∃ st st', Database.dbOpen (Database.plainEnv 9) st (recordedFlash name) =
      some (recordedDb name, st') := by
  obtain ⟨st, st', hopen⟩ :=
    Database.opens_afterOpen (Database.plainEnv 9) (recordedFlash name)
  rw [h] at hopen
  exact ⟨st, st', hopen⟩

/-- The page has been opened with this database. -/
def pageOf (db : Database.Db) : Sys Host :=
  ⟨Wire.opened (rmtDbInit (.boot false)), .resting { (openedSession .nil).host with db }⟩

end Sunela.Remote
