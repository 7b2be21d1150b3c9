import Sunela.Model.Operation

/-! # Operations are made of calls

Whatever an operation does could also have been done by calls, so what holds in every run of
calls holds in every run of operations. -/

namespace Sunela.Database

open Program Storage Block Fields Entry

/-- Calls that may be made wherever `I` holds, and keep it: those that operations are made of. -/
structure Lets (device : Device) (env : Env) (allowed : State → Call → Prop)
    (I : State → Prop) : Prop where
  step : ∀ {s t c ok}, I s → allowed s c → Ends device (fun db => c.exec env db) s ok t → I t
  change : ∀ {s type} p data, I s → type ≠ ftEnd → allowed s (.changeField p type data)
  delete : ∀ {s e i}, I s → e ∈ s.db.entries.entries →
    (e.fields.findIdx? fun f => f.type = ftPrev) = some i → allowed s (.deleteField e.ptr i)
  sort : ∀ {s}, I s → allowed s .tsort

/-- Where the program ends, allowed calls could have led from the state. -/
def Follows {α : Type} (device : Device) (env : Env) (allowed : State → Call → Prop)
    (I : State → Prop) (s : State) (p : Fw α) (out : α → Db) : Prop :=
  I s → ∀ a g, Returns device p s.flash a g → Reachable device env allowed s ⟨out a, g⟩

variable {device : Device} {env : Env} {allowed : State → Call → Prop} {I : State → Prop}
  {α β : Type} {s : State}

theorem Reachable.trans {t u : State} (h : Reachable device env allowed s t)
    (h' : Reachable device env allowed t u) : Reachable device env allowed s u := by
  induction h' with
  | start => exact h
  | next _ ha ends ih => exact .next ih ha ends

theorem Lets.reachable (L : Lets device env allowed I) {t : State} (hs : I s)
    (h : Reachable device env allowed s t) : I t := by
  induction h with
  | start => exact hs
  | next _ ha ends ih => exact L.step ih ha ends

theorem follows_ret {a : α} {out : α → Db} (h : out a = s.db) :
    Follows device env allowed I s (.ret a) out := by
  intro _ b g hr
  obtain ⟨he, rfl⟩ := reaches_ret.mp hr
  obtain rfl := Prog.ret.inj he
  rw [h]
  exact .start

theorem follows_halt {out : α → Db} {i : ℕ} :
    Follows device env allowed I s (.halt i) out :=
  fun _ _ _ h => by cases h

theorem follows_undef {out : α → Db} : Follows device env allowed I s .undef out :=
  fun _ _ _ h => by cases h

theorem follows_call {c : Call} (h : I s → allowed s c) :
    Follows device env allowed I s (c.exec env s.db) Prod.snd :=
  fun hs _ _ hr => .next .start (h hs) hr

section Operations

variable (L : Lets device env allowed I)

include L

theorem follows_bind {p : Fw α} {next : α → Fw β} {out : α → Db} {out' : β → Db}
    (h : Follows device env allowed I s p out)
    (hn : ∀ a g, Follows device env allowed I ⟨out a, g⟩ (next a) out') :
    Follows device env allowed I s (p >>= next) out' := by
  intro hs b g hr
  obtain ⟨a, f, hp, hnext⟩ := returns_bind hr
  have hreach := h hs a f hp
  exact hreach.trans (hn a f (L.reachable hs hreach) b g hnext)

theorem follows_sorted (s : State) : Follows device env allowed I s s.db.sorted id := by
  intro hs db g hr
  have h := Reaches.bind (fun db => (.ret (true, db) : Fw (Bool × Db))) hr
  have hcall : Follows device env allowed I s (Call.tsort.exec env s.db) Prod.snd :=
    follows_call L.sort
  exact hcall hs (true, db) g h

theorem follows_changeField (p : ℕ) {type : UInt8} (ht : type ≠ ftEnd) (data : Bytes) :
    Follows device env allowed I s (dbChangeField env s.db p type data) Prod.snd :=
  follows_call (c := .changeField p type data) fun hs => L.change p data hs ht

theorem follows_deletePrev {e : DbEntry} (he : e ∈ s.db.entries.entries) :
    Follows device env allowed I s (dbDeleteType env s.db e ftPrev) Prod.snd := by
  unfold dbDeleteType
  split
  · exact follows_halt
  · next i hi => exact follows_call (c := .deleteField e.ptr i) fun hs => L.delete hs he hi

theorem follows_patchOne (p : ℕ) (newPrefix : Bytes) (oldPrefixLen : ℕ) :
    Follows device env allowed I s (patchOne env s.db p newPrefix oldPrefixLen) Prod.snd := by
  unfold patchOne
  repeat' split
  all_goals first
    | exact follows_undef
    | exact follows_halt
    | exact follows_changeField L _ (by decide) _

theorem follows_patchRecursive (newPrefix : Bytes) (oldPrefixLen : ℕ) (F : Tree) :
    Follows device env allowed I s (patchRecursive env newPrefix oldPrefixLen F s.db)
      Prod.snd := by
  induction F generalizing s with
  | nil => exact follows_ret rfl
  | node e ch nx hc hn =>
      refine follows_bind L (follows_patchOne L e.ptr newPrefix oldPrefixLen) ?_
      rintro ⟨ok, db⟩ g
      cases ok with
      | false => exact follows_ret rfl
      | true =>
          refine follows_bind L hc ?_
          rintro ⟨ok, db⟩ g
          cases ok with
          | false => exact follows_ret rfl
          | true => exact hn

theorem follows_rename (p : ℕ) (name : CString) :
    Follows device env allowed I s (dbRename env s.db p name) Prod.snd := by
  unfold dbRename
  repeat' split
  all_goals first
    | exact follows_undef
    | exact follows_halt
    | exact follows_patchRecursive L _ _ _

theorem follows_mkdir (p : ℕ) : Follows device env allowed I s (dbMkdir env s.db p) id := by
  unfold dbMkdir
  split
  · exact follows_undef
  · split
    · exact follows_halt
    · exact follows_bind L (follows_changeField L _ (by decide) _) fun _ _ => follows_ret rfl

omit L in
theorem mem_of_follower {db : Db} {p : ℕ} {prev : Option DbEntry} {e : DbEntry}
    (h : follower db p prev = some e) : e ∈ db.entries.entries := by
  have htop : [e] ∈ db.entries.chains := Forest.mem_chains_of_tops (List.mem_of_find?_eq_some h)
  exact (Forest.chain_sublist htop).subset (by simp)

theorem follows_moveFollowers (fuel p : ℕ) :
    Follows device env allowed I s (moveFollowers env fuel s.db p) id := by
  induction fuel generalizing s with
  | zero => exact follows_halt
  | succ fuel ih =>
      unfold moveFollowers
      split
      · exact follows_undef
      · split
        · exact follows_ret rfl
        · next e2 hfollow =>
            split
            · exact follows_bind L (follows_changeField L _ (by decide) _) fun _ _ => ih
            · exact follows_bind L (follows_deletePrev L (mem_of_follower hfollow))
                fun _ _ => ih

theorem follows_moveFollowers2 (fuel p : ℕ) (after : Option DbEntry) :
    Follows device env allowed I s (moveFollowers2 env fuel s.db p after) id := by
  induction fuel generalizing s with
  | zero => exact follows_halt
  | succ fuel ih =>
      unfold moveFollowers2
      split
      · exact follows_undef
      · split
        · exact follows_ret rfl
        · exact follows_bind L (follows_changeField L _ (by decide) _) fun _ _ => ih

theorem follows_moveEntry (p : ℕ) (after : Option DbEntry) :
    Follows device env allowed I s (moveEntry env s.db p after) id := by
  unfold moveEntry
  split
  · exact follows_undef
  · next e ch hfind =>
      split
      · exact follows_bind L (follows_changeField L _ (by decide) _)
          fun _ _ => follows_sorted L _
      · split
        · exact follows_sorted L s
        · exact follows_bind L (follows_deletePrev L (mem_entries_of_find hfind).1)
            fun _ _ => follows_sorted L _

theorem follows_moveAfter (fuel p : ℕ) (after : Option ℕ) :
    Follows device env allowed I s (dbMoveAfter env fuel s.db p after) id := by
  have hgo : ∀ a : Option DbEntry, Follows device env allowed I s (do
      let db ← moveFollowers env fuel s.db p
      let db ← moveFollowers2 env fuel db p a
      moveEntry env db p a) id := fun a =>
    follows_bind L (follows_moveFollowers L fuel p) fun _ _ =>
      follows_bind L (follows_moveFollowers2 L fuel p a) fun _ _ => follows_moveEntry L p a
  unfold dbMoveAfter
  split
  · exact follows_ret rfl
  · simp only []
    split
    · exact hgo none
    · split
      · exact follows_undef
      · exact hgo _

theorem follows_moveBefore (fuel p : ℕ) (before : Option ℕ) :
    Follows device env allowed I s (dbMoveBefore env fuel s.db p before) id := by
  unfold dbMoveBefore
  repeat' split
  all_goals first
    | exact follows_halt
    | exact follows_moveAfter L _ _ _

/-- Allowed calls could have led to every state that an operation leads to. -/
theorem op_follows {o : Op} (ho : ∀ c, o = .call c → allowed s c) {ok : Bool} {t : State}
    (hs : I s) (h : Ends device (fun db => o.exec env db) s ok t) :
    Reachable device env allowed s t := by
  suffices hf : Follows device env allowed I s (o.exec env s.db) Prod.snd from hf hs _ _ h
  cases o with
  | call c => exact follows_call fun _ => ho c rfl
  | mkdir p => exact follows_bind L (follows_mkdir L p) fun _ _ => follows_ret rfl
  | rename p name => exact follows_rename L p name
  | moveAfter fuel p after =>
      exact follows_bind L (follows_moveAfter L fuel p after) fun _ _ => follows_ret rfl
  | moveBefore fuel p before =>
      exact follows_bind L (follows_moveBefore L fuel p before) fun _ _ => follows_ret rfl

end Operations

/-- Calls could have led to every state that an operation leads to. -/
theorem op_reachable {o : Op} {ok : Bool} {t : State}
    (h : Ends device (fun db => o.exec env db) s ok t) :
    Reachable device env (fun _ _ => True) s t :=
  op_follows (I := fun _ => True) ⟨fun _ _ _ => trivial, fun _ _ _ _ => trivial,
    fun _ _ _ => trivial, fun _ => trivial⟩ (fun _ _ => trivial) trivial h

end Sunela.Database
