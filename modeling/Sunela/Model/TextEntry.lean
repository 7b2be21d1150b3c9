import Mathlib.Data.Int.Notation
import Sunela.Lib.CString

/-! # The page for the entry of texts

Each key opens a second set of keys, and a key of that set adds a character. -/

namespace Sunela.TextEntry

def characters (s : String) : Bytes := s.toList.map fun c => UInt8.ofNat c.toNat

/-- `ui_entry_text_maps.second` -/
def secondMap (n : Fin 10) : Bytes :=
  characters (["0&!?:;/ .,", "1'\"`+-*@#$", "2ABCabc(&)", "3DEFdef<=>", "4GHIghi[\\]",
    "5JKLjkl\x7b|\x7d", "6MNOmno^_~", "7PQRpqrSs", "8TUVtuv%", "9WXYwxyZz"].getD n "")

/-- `struct ui_entry_input`, without the buffer. A positive result accepts the text, a
negative one rejects the last character. -/
structure UiEntryInput where
  maxLen : ℕ
  validate : CString → ℤ

structure UiEntryCtx where
  buf : CString
  second : Option Bytes

inductive Button where
  | left
  | right
  | key (n : Fin 10)

def uiEntryValid (inp : UiEntryInput) (buf : CString) : Bool :=
  decide (buf = .empty) || decide (0 < inp.validate buf)

def buttonIsVisible (c : UiEntryCtx) : Button → Bool
  | .left => true
  | .right => c.second.isNone
  | .key n => c.second.all fun map => decide (n.val < map.length)

def buttonIsEnabled (inp : UiEntryInput) (c : UiEntryCtx) : Button → Bool
  | .left => true
  | .right => decide (c.buf ≠ .empty) && uiEntryValid inp c.buf
  | .key _ => decide (c.buf.bytes.length ≠ inp.maxLen)

/-- The page stays open, or it returns to the one below with what is in the buffer. -/
inductive Outcome where
  | stay (c : UiEntryCtx)
  | back (buf : CString)

/-- Cancel or delete. -/
def tapLeft (c : UiEntryCtx) : Outcome :=
  if c.second.isSome then .stay { c with second := none }
  else if c.buf = .empty then .back c.buf
  else .stay { c with buf := .ofBuffer c.buf.bytes.dropLast }

def tapKey (inp : UiEntryInput) (c : UiEntryCtx) (n : Fin 10) : Outcome :=
  match c.second with
  | none => .stay { c with second := some (secondMap n) }
  | some map =>
      let buf := .ofBuffer (c.buf.bytes ++ [map.getD n 0])
      .stay { buf := if inp.validate buf < 0 then c.buf else buf, second := none }

def uiEntryTap (inp : UiEntryInput) (c : UiEntryCtx) (b : Button) : Outcome :=
  if !buttonIsVisible c b || !buttonIsEnabled inp c b then .stay c
  else
    match b with
    | .left => tapLeft c
    | .right => .back c.buf
    | .key n => tapKey inp c n

/-- What the user does. A swipe to the left gives up the text. -/
inductive Touch where
  | tap (b : Button)
  | swipe

def uiEntryTouch (inp : UiEntryInput) (c : UiEntryCtx) : Touch → Outcome
  | .tap b => uiEntryTap inp c b
  | .swipe => .back .empty

/-- The text with which the page returns, if it does. -/
def uiEntry (inp : UiEntryInput) : UiEntryCtx → List Touch → Option CString
  | _, [] => none
  | c, t :: touches =>
      match uiEntryTouch inp c t with
      | .stay c => uiEntry inp c touches
      | .back buf => some buf

end Sunela.TextEntry
