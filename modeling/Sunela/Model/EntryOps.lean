import Sunela.Model.Bip39
import Sunela.Model.UiEntry

/-! # Keys of the entry page

The maps and the operations of the widgets for texts, for mnemonic codes, and for PINs. -/

namespace Sunela.UiEntry

/-! ## Maps -/

def uiEntryTextMaps : UiEntryMaps where
  first n := (["0 /!?", "1@\"+#", "2ABC", "3DEF", "4GHI", "5JKL", "6MNO", "7PQRS", "8TUV",
    "9WXYZ"][n.val]?).map fun s => .ofBuffer (asciiBytes s)
  second n := (["0&!?:;/ .,", "1'\"`+-*@#$", "2ABCabc(&)", "3DEFdef<=>", "4GHIghi[\\]",
    "5JKLjkl\x7b|\x7d", "6MNOmno^_~", "7PQRpqrSs", "8TUVtuv%", "9WXYwxyZz"][n.val]?).map fun s =>
      .ofBuffer (asciiBytes s)

def uiEntryDecimalMaps : UiEntryMaps where
  first n := (["0", "1", "2", "3", "4", "5", "6", "7", "8", "9"][n.val]?).map fun s =>
    .ofBuffer (asciiBytes s)
  second _ := none

/-! ## Pad layout -/

def gfxWidth : ℕ := 240

def gfxHeight : ℕ := 280

def buttonR : ℕ := 12

def buttonXSpacing : ℕ := 70 + 8

def buttonYSpacing : ℕ := 50 + 5

def buttonX0 : ℕ := gfxWidth / 2 - buttonXSpacing

def buttonY1 : ℕ := gfxHeight - 50 / 2 - 8

def buttonY0 : ℕ := buttonY1 - 3 * buttonYSpacing

/-- `wi_general_entry_pos`, which is the same as `wi_bip39_entry_pos`. -/
def wiEntryPos (x y : ℕ) : Option (ℕ × ℕ) :=
  let col :=
    if x < buttonX0 + buttonXSpacing / 2 then 0
    else if 2 * x < 2 * buttonX0 + 3 * buttonXSpacing then 1
    else 2
  if y < buttonY0 - buttonYSpacing + buttonR then none
  else if y < buttonY0 then some (col, 3)
  else if buttonY1 < y then some (col, 0)
  else some (col, 3 - (y - buttonY0 + buttonYSpacing / 2) / buttonYSpacing)

/-- The button of a number. -/
def numbered (n : ℕ) : Button := if h : n < 10 then .key ⟨n, h⟩ else .invalid

def wiGeneralEntryN (col row : ℕ) : Button :=
  match row, col with
  | 0, 0 => .left
  | 0, 1 => numbered 0
  | 0, 2 => .right
  | 0, _ => .invalid
  | row, col => if row ≤ 3 then numbered (1 + col + (3 - row) * 3) else .invalid

def wiGeneralEntryOps : UiEntryOps := ⟨wiEntryPos, wiGeneralEntryN, none, none, none⟩

/-! ## Mnemonic codes -/

def bip39MaxSets : ℕ := 4

def wiBip39EntryN (col row : ℕ) : Button :=
  match row, col with
  | 0, 0 => .left
  | 0, 1 => numbered 9
  | 0, 2 => .right
  | 0, _ => .invalid
  | row, col =>
      if row ≤ 3 ∧ col + (3 - row) * 3 ≤ 8 then numbered (col + (3 - row) * 3) else .invalid

/-- What is found for a text of keys, for which no assertion fails. -/
def matchesOf (words : List CString) (text : CString) : List ℕ :=
  ((Bip39.bip39Match words text none).map Prod.fst).getD []

def nextOf (words : List CString) (text : CString) : Bytes :=
  ((Bip39.bip39Match words text (some 11)).bind Prod.snd).getD []

def wiBip39EnabledSet (words : List CString) (text : CString) : UInt16 :=
  if text.bytes.length = bip39MaxSets then 0
  else (nextOf words text).foldl (fun set k => set ||| (1 : UInt16) <<< (k.toUInt16 - 48)) 0

def wiBip39Accept (words : List CString) (text : CString) : Bool :=
  decide (text.bytes.length = bip39MaxSets) || decide ((matchesOf words text).length = 1)

def wiBip39EntryOps (words : List CString) : UiEntryOps :=
  ⟨wiEntryPos, wiBip39EntryN, some fun n => Bip39.keyChar n, some (wiBip39EnabledSet words),
    some (wiBip39Accept words)⟩

end Sunela.UiEntry

/-! ## PINs -/

namespace Sunela.PinPad

open UiEntry

def minPinLen : ℕ := 4

def maxPinLen : ℕ := 8

/-- The digits at the positions of the pad. -/
abbrev Shuffle := Fin 10 → Fin 10

def swap (pinShuffle : Shuffle) (a b : Fin 10) : Shuffle := fun k =>
  if k = a then pinShuffle b else if k = b then pinShuffle a else pinShuffle k

/-- `pin_shuffle_pad`, where `rnd i` is the random number in round `i`. -/
def pinShufflePad (rnd : Fin 10 → Fin 10) (pinShuffle : Shuffle) : Shuffle :=
  (List.finRange 10).foldl (fun pinShuffle i => swap pinShuffle i (rnd i)) pinShuffle

def buttonR : ℕ := 25

def buttonXSpacing : ℕ := 2 * buttonR + 20

def buttonYSpacing : ℕ := 2 * buttonR + 10

def buttonX0 : ℕ := gfxWidth / 2 - buttonXSpacing

def buttonY1 : ℕ := gfxHeight - buttonR - 3

def buttonY0 : ℕ := buttonY1 - 3 * buttonYSpacing

def wiPinEntryN (shuffle : Shuffle) (col row : ℕ) : Button :=
  if row ≠ 0 then
    let n : ℤ := 1 + col + (3 - row) * 3
    if n < 1 ∨ n > 9 then .invalid else .key (shuffle (Fin.ofNat 10 n.toNat))
  else
    match col with
    | 0 => .left
    | 1 => .key (shuffle 0)
    | 2 => .right
    | _ => .invalid

/-- The centre of the disc that `wi_pin_entry_button` draws for a button. -/
def buttonCenter (col row : ℕ) : ℤ × ℤ :=
  (buttonX0 + buttonXSpacing * col, buttonY1 - buttonYSpacing * row)

def wiPinEntryPos (x y : ℕ) : Option (ℕ × ℕ) :=
  let col :=
    if x < buttonX0 + buttonXSpacing / 2 then 0
    else if 2 * x < 2 * buttonX0 + 3 * buttonXSpacing then 1
    else 2
  if y < buttonY0 - buttonYSpacing + buttonR then none
  else if y < buttonY0 then some (col, 3)
  else if y > buttonY1 then some (col, 0)
  else some (col, 3 - (y - buttonY0 + buttonYSpacing / 2) / buttonYSpacing)

def wiPinEntryOps (shuffle : Shuffle) : UiEntryOps :=
  ⟨wiPinEntryPos, wiPinEntryN shuffle, none, none, none⟩

def validate (s : CString) : ℤ :=
  if s.bytes.length ≥ minPinLen ∧ s.bytes.length ≤ maxPinLen then 1 else 0

/-- The parameters with which `ui_pin_open` calls the entry page. -/
def pinParams (shuffle : Shuffle) : UiEntryParams :=
  ⟨⟨maxPinLen, some validate⟩, uiEntryDecimalMaps, wiPinEntryOps shuffle⟩

end Sunela.PinPad
