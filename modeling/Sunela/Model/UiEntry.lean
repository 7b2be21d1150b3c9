import Mathlib.Data.Int.Notation
import Mathlib.Data.UInt
import Sunela.Lib.CString

/-! # The page for the entry of texts

The keys, what they add to the text, and which of them are enabled are up to the caller of the
page. Of the operations, only those that return something are considered. -/

namespace Sunela.UiEntry

/-! ## Parameters -/

/-- What the operation `n` returns for a button. -/
inductive Button where
  | left
  | right
  | invalid
  | key (n : Fin 10)
  deriving DecidableEq

structure UiEntryMaps where
  first : Fin 10 → Option CString
  second : Fin 10 → Option CString

/-- `struct ui_entry_input`, without the buffer. -/
structure UiEntryInput where
  maxLen : ℕ
  validate : Option (CString → ℤ)

/-- `struct ui_entry_ops`. The last three can be NULL, and two of them look at the buffer. -/
structure UiEntryOps where
  pos : ℕ → ℕ → Option (ℕ × ℕ)
  n : ℕ → ℕ → Button
  keyChar : Option (Fin 10 → UInt8)
  enabledSet : Option (CString → UInt16)
  accept : Option (CString → Bool)

structure UiEntryParams where
  input : UiEntryInput
  maps : UiEntryMaps
  ops : UiEntryOps

/-- The buffer, and the run-time variables of `struct ui_entry_ctx`. The timer is set or not. -/
structure UiEntryCtx where
  buf : Bytes
  second : Option CString
  tButton : Bool
  down : ℕ × ℕ
  lastEnabled : UInt16
  deriving DecidableEq

/-- The text in the buffer. -/
def UiEntryCtx.text (c : UiEntryCtx) : CString := .ofBuffer c.buf

def uiEntryValid (inp : UiEntryInput) (text : CString) : Bool :=
  decide (text = .empty) || inp.validate.all fun validate => decide (0 < validate text)

/-! ## Buttons -/

/-- `draw_first`, as far as it is not drawing. -/
def drawFirst (c : UiEntryCtx) (enabled : Bool) : UiEntryCtx :=
  { c with lastEnabled := if enabled then 2 ^ 11 - 1 else 0 }

/-- `draw_enabled_change`, or what its callers do if it returns 0. -/
def drawEnabledChange (p : UiEntryParams) (c d : UiEntryCtx) : UiEntryCtx :=
  match p.ops.enabledSet with
  | none => d
  | some enabledSet => { c with lastEnabled := enabledSet c.text }

def buttonIsVisible (p : UiEntryParams) (c : UiEntryCtx) : Button → Bool
  | .invalid => false
  | .left => true
  | .right => c.second.isNone
  | .key n =>
      match c.second with
      | some second => decide (n.val < second.bytes.length)
      | none => (p.maps.first n).isSome

def buttonIsEnabled (p : UiEntryParams) (c : UiEntryCtx) : Button → Bool
  | .invalid => false
  | .left => true
  | .right => decide (c.text ≠ .empty) && uiEntryValid p.input c.text
  | .key n =>
      if c.text.bytes.length = p.input.maxLen then false
      else if p.ops.enabledSet.isSome then c.lastEnabled.toNat.testBit n
      else true

/-! ## Events -/

/-- The page stays open, or it returns to the one below, which finds the buffer. It returns after
a key if `accept` says so. -/
inductive Outcome where
  | stay (c : UiEntryCtx)
  | back (accepted : Bool) (buf : Bytes)
  | undefined

/-- Write to the buffer. -/
def UiEntryCtx.store (c : UiEntryCtx) (i : ℕ) (b : UInt8) : Option UiEntryCtx :=
  if i < c.buf.length then some { c with buf := c.buf.set i b } else none

/-- Drawing a button of the second level reads its character. -/
def drawButtonByPos (p : UiEntryParams) (c : UiEntryCtx) (pos : ℕ × ℕ) : Bool :=
  match p.ops.n pos.1 pos.2, c.second with
  | .key n, some second => decide (n.val ≤ second.bytes.length)
  | _, _ => true

/-- What `timer_flush` does: the handler of the timer is `release_button`. -/
def timerFlush (p : UiEntryParams) (c : UiEntryCtx) : Outcome :=
  if c.tButton then
    if drawButtonByPos p c c.down then .stay { c with tButton := false } else .undefined
  else .stay c

def uiEntryDown (p : UiEntryParams) (c : UiEntryCtx) (x y : ℕ) : Outcome :=
  match p.ops.pos x y with
  | none => .stay c
  | some (col, row) =>
      match timerFlush p c with
      | .stay c =>
          if !buttonIsVisible p c (p.ops.n col row) then .stay c
          else if !buttonIsEnabled p c (p.ops.n col row) then .stay c
          else if drawButtonByPos p c (col, row) then
            .stay { c with down := (col, row), tButton := true }
          else .undefined
      | o => o

/-- Cancel or delete. -/
def tapLeft (p : UiEntryParams) (c : UiEntryCtx) (last : ℕ) : Outcome :=
  if c.second.isSome then .stay (drawFirst { c with tButton := false, second := none } true)
  else if c.text = .empty then .back false c.buf
  else
    match c.store (last - 1) 0 with
    | none => .undefined
    | some c =>
        .stay (drawEnabledChange p c (if last = p.input.maxLen then drawFirst c true else c))

/-- The character of a key, unless there is no string to take it from. -/
def character (p : UiEntryParams) (c : UiEntryCtx) (n : Fin 10) : Option UInt8 :=
  match p.ops.keyChar with
  | some keyChar => some (keyChar n)
  | none =>
      match c.second with
      | some second => (second.bytes ++ [0])[n.val]?
      | none => (p.maps.first n).map fun first => first.bytes.headD 0

/-- The character is added, unless that is rejected. -/
def addCharacter (p : UiEntryParams) (c : UiEntryCtx) (last : ℕ) (ch : UInt8) :
    Option UiEntryCtx := do
  let c ← c.store last ch
  let c ← c.store (last + 1) 0
  if p.input.validate.any fun validate => decide (validate c.text < 0) then c.store last 0
  else some c

/-- What follows a key. -/
def tapEnd (p : UiEntryParams) (c : UiEntryCtx) : Outcome :=
  if p.ops.accept.any fun accept => accept c.text then .back true c.buf else .stay c

def tapKey (p : UiEntryParams) (c : UiEntryCtx) (last : ℕ) (n : Fin 10) : Outcome :=
  match c.second, p.maps.second n with
  | none, some second => tapEnd p { c with tButton := false, second := some second }
  | second, _ =>
      match character p c n with
      | none => .undefined
      | some ch =>
          -- the timer is stopped only where the character is one of the second level
          let tButton := c.tButton && (p.ops.keyChar.isSome || second.isNone)
          match addCharacter p { c with tButton } last ch with
          | none => .undefined
          | some c =>
              let c := { c with second := none }
              tapEnd p (drawEnabledChange p c
                (drawFirst c (decide (c.text.bytes.length ≠ p.input.maxLen))))

def uiEntryTap (p : UiEntryParams) (c : UiEntryCtx) (x y : ℕ) : Outcome :=
  if 0 ∉ c.buf then .undefined
  else
    match p.ops.pos x y with
    | none => .stay c
    | some (col, row) =>
        if !buttonIsVisible p c (p.ops.n col row) then .stay c
        else if !buttonIsEnabled p c (p.ops.n col row) then .stay c
        else
          match p.ops.n col row with
          | .left => tapLeft p c c.text.bytes.length
          | .right => .back false c.buf
          | .key n => tapKey p c c.text.bytes.length n
          | .invalid => .stay c

/-- A swipe to the left gives up the text. -/
def uiEntryTo (c : UiEntryCtx) (left : Bool) : Outcome :=
  if left then
    match c.store 0 0 with
    | none => .undefined
    | some c => .back false c.buf
  else .stay c

inductive Event where
  | down (x y : ℕ)
  | tap (x y : ℕ)
  | swipe (left : Bool)
  | cancel
  | timer

def uiEntryEvent (p : UiEntryParams) (c : UiEntryCtx) : Event → Outcome
  | .down x y => uiEntryDown p c x y
  | .tap x y => uiEntryTap p c x y
  | .swipe left => uiEntryTo c left
  | .cancel => timerFlush p c
  | .timer => timerFlush p c

/-- `ui_entry_open`, unless its assertion fails. -/
def uiEntryOpen (p : UiEntryParams) (buf : Bytes) : Option UiEntryCtx :=
  let c : UiEntryCtx := ⟨buf, none, false, (0, 0), 0⟩
  if c.text.bytes.length ≤ p.input.maxLen then
    some (drawFirst c (decide (c.text.bytes.length ≠ p.input.maxLen)))
  else none

/-- What the page has become after events during which it stays open. -/
inductive Reached (p : UiEntryParams) (c : UiEntryCtx) : UiEntryCtx → Prop where
  | start : Reached p c c
  | next {d d' : UiEntryCtx} {e : Event} (run : Reached p c d)
      (event : uiEntryEvent p d e = .stay d') : Reached p c d'

end Sunela.UiEntry
