import Mathlib.Data.Int.Notation
import Mathlib.Data.List.Basic

/-! # Lists of spans (consecutive blocks)

The linked list of `span.c`. A pointer to memory that has been freed is a list of its own
kind, and following it has no defined result: the operations below are partial for it. -/

namespace Sunela.Span

/-- `struct db_span`, without the link. A span in a list is never empty. -/
structure DbSpan where
  start : ℕ
  len : ℕ
  pos : 0 < len
  deriving DecidableEq

/-- A list of spans as the pointer to its head shows it. -/
inductive Spans where
  | null
  | node (this : DbSpan) (next : Spans)
  | freed
  deriving DecidableEq

/-- The blocks of a list, as far as it can be followed. -/
def Spans.blocks : Spans → List ℕ
  | .null => []
  | .node this next => List.range' this.start this.len ++ next.blocks
  | .freed => []

def spanAdd : Spans → (n size : ℕ) → 0 < size → Option Spans
  | .null, n, size, h => some (.node ⟨n, size, h⟩ .null)
  | .freed, _, _, _ => none
  | .node this next, n, size, h =>
      if this.start + this.len = n then
        let grown : DbSpan := ⟨this.start, this.len + size, Nat.add_pos_left this.pos _⟩
        match next with
        | .null => some (.node grown .null)
        | .freed => none
        | .node next rest =>
            if next.start ≠ grown.start + grown.len then
              some (.node grown (.node next rest))
            else
              some (.node ⟨grown.start, grown.len + next.len, Nat.add_pos_left grown.pos _⟩ rest)
      else if this.start = n + size then
        -- the loop is left and its end reached: the extended span and all that follows it
        -- are replaced by a new span
        some (.node ⟨n, size, h⟩ .null)
      else
        (spanAdd next n size h).map (.node this)

def spanPullOne : Spans → Option (Option ℕ × Spans)
  | .null => some (none, .null)
  | .freed => none
  | .node this next =>
      if h : this.len - 1 ≠ 0 then
        some (some this.start, .node ⟨this.start + 1, this.len - 1, Nat.pos_of_ne_zero h⟩ next)
      else
        some (some this.start, next)

def roundUp (n mod : ℕ) : ℕ := (n + mod - 1) - (n + mod - 1) % mod

theorem le_roundUp (n : ℕ) {mod : ℕ} (h : 0 < mod) : n ≤ roundUp n mod := by
  have := Nat.mod_lt (n + mod - 1) h
  unfold roundUp
  omega

theorem roundUp_lt (n : ℕ) {mod : ℕ} (h : 0 < mod) : roundUp n mod < n + mod := by
  unfold roundUp
  omega

theorem roundUp_mod (n mod : ℕ) : roundUp n mod % mod = 0 := by
  unfold roundUp
  exact Nat.sub_mod_eq_zero_of_mod_eq (Nat.mod_mod _ _).symm

/-- The span holds a whole group of blocks, aligned to the size of an erase. -/
def DbSpan.HasGroup (this : DbSpan) (eraseSize : ℕ) : Prop :=
  roundUp this.start eraseSize + eraseSize ≤ this.start + this.len

instance (this : DbSpan) (eraseSize : ℕ) : Decidable (this.HasGroup eraseSize) :=
  inferInstanceAs (Decidable (_ ≤ _))

/-- The list from a span on, after its first whole group has been taken out. -/
def takeGroup (this : DbSpan) (next : Spans) (eraseSize : ℕ) (he : 0 < eraseSize)
    (hg : this.HasGroup eraseSize) : Spans :=
  let n := roundUp this.start eraseSize
  if hn : n = this.start then
    if hl : this.len = eraseSize then
      -- the head is set to the span that is freed next, not to its successor
      .freed
    else
      .node ⟨this.start + eraseSize, this.len - eraseSize, by
        unfold DbSpan.HasGroup at hg; omega⟩ next
  else if hl : this.start + this.len = n + eraseSize then
    .node ⟨this.start, this.len - eraseSize, by
      have := le_roundUp this.start he; omega⟩ next
  else
    .node ⟨this.start, n - this.start, by have := le_roundUp this.start he; omega⟩
      (.node ⟨n + eraseSize, this.start + this.len - n - eraseSize, by
        unfold DbSpan.HasGroup at hg; omega⟩ next)

def spanPullEraseBlock : Spans → (eraseSize : ℕ) → 0 < eraseSize → Option (Option ℕ × Spans)
  | .null, _, _ => some (none, .null)
  | .freed, _, _ => none
  | .node this next, eraseSize, he =>
      if hg : this.HasGroup eraseSize then
        some (some (roundUp this.start eraseSize), takeGroup this next eraseSize he hg)
      else
        (spanPullEraseBlock next eraseSize he).map fun r => (r.1, .node this r.2)

/-! ## Spans as the machine has them

The spans with their `unsigned` fields, where sums can wrap around. Nothing keeps the length of
such a span from being zero. -/

/-- `struct db_span`, without the link. -/
structure SpanWord where
  start : UInt32
  len : UInt32
  deriving DecidableEq

inductive SpanWords where
  | null
  | node (this : SpanWord) (next : SpanWords)
  | freed
  deriving DecidableEq

def roundUpWord (n mod : UInt32) : UInt32 :=
  let n := n + (mod - 1)
  n - n % mod

/-- The condition that ends the loop of `span_pull_erase_block`. -/
def SpanWord.Accepts (this : SpanWord) (eraseSize : UInt32) : Prop :=
  roundUpWord this.start eraseSize + eraseSize ≤ this.start + this.len

instance (this : SpanWord) (eraseSize : UInt32) : Decidable (this.Accepts eraseSize) :=
  inferInstanceAs (Decidable (_ ≤ _))

def takeGroupWord (this : SpanWord) (next : SpanWords) (eraseSize : UInt32) : SpanWords :=
  let n := roundUpWord this.start eraseSize
  if n = this.start then
    if this.len = eraseSize then
      .freed
    else
      .node ⟨this.start + eraseSize, this.len - eraseSize⟩ next
  else if this.start + this.len = n + eraseSize then
    .node ⟨this.start, this.len - eraseSize⟩ next
  else
    .node ⟨this.start, n - this.start⟩
      (.node ⟨n + eraseSize, this.start + this.len - n - eraseSize⟩ next)

/-- The conversion of the result, `unsigned` to `int`. -/
def asInt (n : UInt32) : ℤ := n.toBitVec.toInt

def spanPullEraseBlockWord : SpanWords → UInt32 → Option (ℤ × SpanWords)
  | .null, _ => some (-1, .null)
  | .freed, _ => none
  | .node this next, eraseSize =>
      if this.Accepts eraseSize then
        some (asInt (roundUpWord this.start eraseSize), takeGroupWord this next eraseSize)
      else
        (spanPullEraseBlockWord next eraseSize).map fun r => (r.1, .node this r.2)

/-- The list as the machine stores it. -/
def DbSpan.word (d : DbSpan) : SpanWord := ⟨UInt32.ofNat d.start, UInt32.ofNat d.len⟩

def Spans.words : Spans → SpanWords
  | .null => .null
  | .node this next => .node this.word next.words
  | .freed => .freed

end Sunela.Span
