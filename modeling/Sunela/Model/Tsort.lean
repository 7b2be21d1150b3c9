import Sunela.Model.Entry

/-! # Topological sort of the top-level entries

Kahn's algorithm over the references in `ft_prev`. A sweep that makes no progress has found
a cycle, and the first reference that is left is given up. -/

namespace Sunela.Tsort

open Fields Entry

/-- `struct tmp`: an entry that has not been put out yet, and the entry it waits for. -/
structure Tmp where
  input : Option (DbEntry × Tree)
  prev : Option ℕ

/-- The entry a predecessor field names: the first of that name. -/
def resolvePrev (F : Tree) (e : DbEntry) : Option ℕ :=
  match dbFieldFind e.fields ftPrev with
  | none => none
  | some f => (F.tops.find? fun e2 => e2.name.bytes = f.data).map DbEntry.ptr

def Tmp.clear (p : ℕ) (t : Tmp) : Tmp := if t.prev = some p then { t with prev := none } else t

/-- The state of a sweep over the array. -/
structure Sweep where
  tmp : List Tmp
  out : List (DbEntry × Tree)
  more : Bool
  progress : Bool

def Sweep.visit (s : Sweep) (i : ℕ) : Sweep :=
  match s.tmp[i]? with
  | none => s
  | some t =>
      match t.input with
      | none => s
      | some r =>
          if t.prev.isSome then { s with more := true }
          else
            { s with
              tmp := (s.tmp.set i { t with input := none }).map (Tmp.clear r.1.ptr)
              out := s.out ++ [r]
              progress := true }

def sweep (tmp : List Tmp) (out : List (DbEntry × Tree)) : Sweep :=
  (List.range tmp.length).foldl Sweep.visit ⟨tmp, out, false, false⟩

/-- Give up the first reference of an entry that is left. -/
def breakCycle : List Tmp → List Tmp
  | [] => []
  | t :: rest =>
      if t.input.isSome ∧ t.prev.isSome then { t with prev := none } :: rest
      else t :: breakCycle rest

def sortLoop (fuel : ℕ) (tmp : List Tmp) (out : List (DbEntry × Tree)) :
    Option (List (DbEntry × Tree)) :=
  match fuel with
  | 0 => none
  | fuel + 1 =>
      let s := sweep tmp out
      if !s.more then some s.out
      else sortLoop fuel (if s.progress then s.tmp else breakCycle s.tmp) s.out

/-- `db_tsort`: the sorted tree, or nothing if the assertion on the count fails. -/
def dbTsort (F : Tree) : Option Tree :=
  let n := F.siblings.length
  if n = 0 then some F
  else
    match sortLoop (2 * n + 1) (F.siblings.map fun r => ⟨some r, resolvePrev F r.1⟩) [] with
    | none => none
    | some out => if out.length = n then some (.ofSiblings out) else none

/-! ## Links between entries

The `next` pointers of the entries, and the loop at the end of `db_tsort` that sets them. -/

/-- `next` of the entry a pointer refers to. -/
abbrev Links := ℕ → Option ℕ

def Links.set (next : Links) (p : ℕ) (q : Option ℕ) : Links := fun i => if i = p then q else next i

/-- The loop that applies the new order. -/
def applyOrder : List ℕ → Links → Links
  | [], next => next
  | [p], next => next.set p none
  | p :: q :: out, next => applyOrder (q :: out) (next.set p (some q))

/-- The entries that are found from a pointer on. -/
inductive Found (next : Links) : Option ℕ → List ℕ → Prop where
  | null : Found next none []
  | entry {p : ℕ} {l : List ℕ} (rest : Found next (next p) l) : Found next (some p) (p :: l)

end Sunela.Tsort
