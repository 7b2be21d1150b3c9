import Sunela.Model.EntryOps
import Sunela.Model.Rmt

/-! # The pages for the entry of mnemonic codes

Each word is entered on a page for its keys, and then chosen from a list of words that match.
The page below both of them is resumed whenever one of them returns. -/

namespace Sunela.UiBip39

open Bip39 UiEntry

/-- `struct ui_bip39_ctx`, with what its parameters point to. The state is `S_CHOICES` or
`S_INPUT`. -/
structure UiBip39Ctx where
  choices : Bool
  buf : Bytes
  result : List ℕ
  numWords : ℕ
  maxWords : ℕ
  deriving DecidableEq

def UiBip39Ctx.text (c : UiBip39Ctx) : CString := .ofBuffer c.buf

/-- The page on top of `ui_bip39`: `ui_entry`, or `ui_bip39_2` with what is in `bip39_matches`
and the places in it that the entries of the list point to. -/
inductive Page where
  | entry (e : UiEntryCtx)
  | list (found entries : List ℕ)
  deriving DecidableEq

inductive Outcome where
  | running (c : UiBip39Ctx) (page : Page)
  /-- `ui_bip39` returns to its caller -/
  | returned (c : UiBip39Ctx)
  /-- an assertion fails, or `ABORT` is reached -/
  | failed
  | undefined
  deriving DecidableEq

/-! ## Entry -/

def validate (words : List CString) (s : CString) : ℤ :=
  if s.bytes.length = bip39MaxSets then 1
  else if (matchesOf words s).any fun i =>
      decide ((words[i]?).any fun w => decide (w.bytes.length = s.bytes.length)) then 1
  else 0

def entryParams (words : List CString) : UiEntryParams :=
  ⟨⟨bip39MaxSets, some (validate words)⟩,
    ⟨fun n => (bip39Sets[n.val]?).map .ofBuffer, fun _ => none⟩, wiBip39EntryOps words⟩

/-- `input_pattern` reaches `ABORT` if no word matches. It is not called for an empty text. -/
def drawInput (words : List CString) (text : CString) : Bool :=
  decide (text = .empty) || decide (matchesOf words text ≠ [])

/-- The title has room for 10 characters. -/
def titleFits (c : UiBip39Ctx) : Bool :=
  decide (("Word " ++ toString (c.numWords + 1) ++ "/" ++ toString c.maxWords).length ≤ 10)

/-- The keys to begin with, which are those of a word that is entered again. -/
def entryBuf (buf : Bytes) : Option CString → Option Bytes
  | none => some (List.replicate (bip39MaxSets + 1) 0)
  | some word =>
      (bip39WordToSets word bip39MaxSets).map fun s => Remote.overwrite buf 0 (s ++ [0])

/-- `entry`. Words consist of small letters, so they can be converted. -/
def entry (words : List CString) (c : UiBip39Ctx) (prev : Option CString) : Outcome :=
  match entryBuf c.buf prev with
  | none => .failed
  | some buf =>
      if !titleFits c then .failed
      else
        match uiEntryOpen (entryParams words) buf with
        | none => .failed
        | some e =>
            if drawInput words e.text then .running { c with choices := false, buf } (.entry e)
            else .failed

/-! ## Open and resume -/

def uiBip39Open (words : List CString) (result : List ℕ) (maxWords : ℕ) : Outcome :=
  entry words ⟨false, List.replicate (bip39MaxSets + 1) 0, result, 0, maxWords⟩ none

def isTerminal (words : List CString) (text : CString) (word : ℕ) : Bool :=
  let len := ((words[word]?).map fun w => w.bytes.length).getD 0
  decide (len = text.bytes.length) ||
    (decide (text.bytes.length = bip39MaxSets) && decide (text.bytes.length < len))

def bip39MaxFinalChoices : ℕ := 4

/-- `ui_bip39_2_open` -/
def uiBip39SecondOpen (words : List CString) (c : UiBip39Ctx) : Outcome :=
  match bip39Match words c.text none with
  | none => .failed
  | some (found, _) =>
      let entries := (List.range found.length).filter fun i =>
        isTerminal words c.text (found.getD i 0) || decide (found.length = 1)
      if 0 < entries.length ∧ entries.length ≤ bip39MaxFinalChoices then
        .running c (.list found entries)
      else .failed

def uiBip39Resume (words : List CString) (c : UiBip39Ctx) : Outcome :=
  if c.text = .empty then
    if c.numWords ≠ 0 then
      match (c.result[c.numWords - 1]?).bind (words[·]?) with
      | none => .undefined
      | some word => entry words { c with numWords := c.numWords - 1 } (some word)
    else .returned c
  else if !c.choices then uiBip39SecondOpen words { c with choices := true }
  else
    let c := { c with choices := false, numWords := c.numWords + 1 }
    if c.numWords = c.maxWords then .returned c else entry words c none

/-! ## Events -/

/-- What the user does on the page for the keys or on the list. A tap on the list is given by the
number of the entry that is hit, if any. -/
inductive Event where
  | entry (e : UiEntry.Event)
  | tap (hit : Option ℕ)
  | swipe (left : Bool)

/-- The place in `bip39_matches` that `ui_bip39_2_tap` picks. -/
def picked (entries : List ℕ) (hit : Option ℕ) : Option ℕ := hit.bind fun i => entries[i]?

def uiBip39SecondTap (words : List CString) (c : UiBip39Ctx) (found entries : List ℕ)
    (hit : Option ℕ) : Outcome :=
  match picked entries hit with
  | none => .running c (.list found entries)
  | some i =>
      match found[i]? with
      | none => .undefined
      | some choice =>
          if c.numWords < c.result.length then
            uiBip39Resume words { c with result := c.result.set c.numWords choice }
          else .undefined

def entryEvent (words : List CString) (c : UiBip39Ctx) (e : UiEntryCtx) (event : UiEntry.Event) :
    Outcome :=
  match uiEntryEvent (entryParams words) e event with
  | .undefined => .undefined
  | .stay e =>
      if drawInput words e.text then .running { c with buf := e.buf } (.entry e) else .failed
  | .back _ buf =>
      if drawInput words (.ofBuffer buf) then uiBip39Resume words { c with buf } else .failed

def step (words : List CString) (c : UiBip39Ctx) : Page → Event → Outcome
  | .entry e, .entry event => entryEvent words c e event
  | .list found entries, .tap hit => uiBip39SecondTap words c found entries hit
  | .list _ _, .swipe true => uiBip39Resume words c
  | page, _ => .running c page

/-! ## Choices -/

/-- A word that the user has tapped in the list, and the keys that had been entered. -/
structure Choice where
  position : ℕ
  word : ℕ
  keys : CString
  deriving DecidableEq

def choice (c : UiBip39Ctx) : Page → Event → Option Choice
  | .list found entries, .tap hit =>
      ((picked entries hit).bind fun i => found[i]?).map fun word => ⟨c.numWords, word, c.text⟩
  | _, _ => none

/-- What events lead to, each of them allowed, and the choices that have been made. -/
inductive Ran (words : List CString) (result : List ℕ) (maxWords : ℕ)
    (allowed : Page → Event → Prop) : Outcome → List Choice → Prop where
  | start : Ran words result maxWords allowed (uiBip39Open words result maxWords) []
  | next {c : UiBip39Ctx} {page : Page} {log : List Choice} {e : Event}
      (run : Ran words result maxWords allowed (.running c page) log) (h : allowed page e) :
      Ran words result maxWords allowed (step words c page e) (log ++ (choice c page e).toList)

end Sunela.UiBip39
