import Mathlib.Data.List.Basic
import Mathlib.Logic.Function.Basic
import Sunela.Lib.CString
import Sunela.Lib.Program

/-! # Flash storage

Blocks of bytes, read and written one at a time and erased in groups. Erasing sets every
bit, and a write can only clear bits. -/

namespace Sunela.Storage

open Program

def storageBlockSize : ℕ := 1024

/-- Both storage back ends erase four blocks at a time. -/
def storageEraseSize : ℕ := 4

/-- The content of a block. -/
structure Block where
  bytes : Bytes
  size : bytes.length = storageBlockSize
  deriving DecidableEq

@[ext] theorem Block.ext {a b : Block} (h : a.bytes = b.bytes) : a = b := by
  cases a
  cases b
  simpa using h

def Block.fill (b : UInt8) : Block :=
  ⟨List.replicate storageBlockSize b, List.length_replicate ..⟩

def erasedBlock : Block := .fill 0xff

def zeroBlock : Block := .fill 0

/-- The content after `buf` is written over `old`. -/
def Block.program (old buf : Block) : Block :=
  ⟨List.zipWith (· &&& ·) old.bytes buf.bytes, by
    simp [List.length_zipWith, old.size, buf.size]⟩

private theorem zipWith_replicate_and {x : UInt8} (hx : ∀ b : UInt8, x &&& b = b) (bs : Bytes) :
    List.zipWith (· &&& ·) (List.replicate bs.length x) bs = bs := by
  induction bs with
  | nil => rfl
  | cons b bs ih => simp [List.replicate_succ, hx, ih]

private theorem zipWith_and_zero (bs : Bytes) :
    List.zipWith (· &&& ·) bs (List.replicate bs.length 0) = List.replicate bs.length 0 := by
  induction bs with
  | nil => rfl
  | cons b bs ih => simp [List.replicate_succ, ih]

private theorem and_full (b : UInt8) : 0xff &&& b = b := by
  apply UInt8.toBitVec_inj.mp
  simpa using BitVec.allOnes_and (x := b.toBitVec)

/-- An erased block takes on exactly what is written to it. -/
@[simp] theorem program_erasedBlock (buf : Block) : erasedBlock.program buf = buf := by
  ext1
  simp only [Block.program, erasedBlock, Block.fill]
  rw [← buf.size]
  exact zipWith_replicate_and and_full buf.bytes

/-- Zeros can be written over any content. -/
@[simp] theorem program_zeroBlock (old : Block) : old.program zeroBlock = zeroBlock := by
  ext1
  simp only [Block.program, zeroBlock, Block.fill]
  rw [← old.size]
  exact zipWith_and_zero old.bytes

/-! ## The device -/

/-- The storage: the content of each block, and the blocks that cannot be read. -/
structure Flash where
  cells : ℕ → Block
  bad : ℕ → Bool

namespace Flash

def set (f : Flash) (n : ℕ) (b : Block) : Flash := { f with cells := Function.update f.cells n b }

/-- Replace the content of the `k` blocks from `n` on. -/
def setRange (f : Flash) (n k : ℕ) (b : ℕ → Block) : Flash :=
  { f with cells := fun i => if n ≤ i ∧ i < n + k then b i else f.cells i }

@[simp] theorem set_bad (f : Flash) (n : ℕ) (b : Block) : (f.set n b).bad = f.bad := rfl

@[simp] theorem setRange_bad (f : Flash) (n k : ℕ) (b : ℕ → Block) :
    (f.setRange n k b).bad = f.bad := rfl

@[simp] theorem set_self (f : Flash) (n : ℕ) (b : Block) : (f.set n b).cells n = b := by
  simp [set]

theorem set_of_ne (f : Flash) {n i : ℕ} (b : Block) (h : i ≠ n) :
    (f.set n b).cells i = f.cells i := by
  simp [set, h]

theorem setRange_of_mem (f : Flash) {n k i : ℕ} (b : ℕ → Block) (h : n ≤ i ∧ i < n + k) :
    (f.setRange n k b).cells i = b i := if_pos h

theorem setRange_of_notMem (f : Flash) {n k i : ℕ} (b : ℕ → Block) (h : ¬ (n ≤ i ∧ i < n + k)) :
    (f.setRange n k b).cells i = f.cells i := if_neg h

end Flash

/-- `storage_read_block`: the content, or nothing if the block cannot be read. -/
def storageReadBlock (f : Flash) (n : ℕ) : Option Block :=
  if f.bad n then none else some (f.cells n)

/-- What the firmware asks of the storage device and of the random number generator. -/
inductive Cmd where
  | read (n : ℕ)
  | write (n : ℕ) (buf : Block)
  | erase (n k : ℕ)
  | random (size : ℕ)

/-- A write or an erase tells whether it succeeded. -/
def Reply : Cmd → Type
  | .read _ => Option Block
  | .write _ _ => Bool
  | .erase _ _ => Bool
  | .random _ => Bytes

abbrev Fw := Prog Cmd Reply

def storageWriteBlock (buf : Block) (n : ℕ) : Fw Bool := Prog.exec (Cmd.write n buf)

def storageEraseBlocks (n k : ℕ) : Fw Bool := Prog.exec (Cmd.erase n k)

def rndBytes (size : ℕ) : Fw Bytes := Prog.exec (Cmd.random size)

/-- How a block may look after an operation on it went wrong: `torn old new x` relates the
content before, the content the operation was to leave, and what is found. -/
abbrev Torn := Block → Block → Block → Prop

/-- The behaviour of the device. A successful operation does what it says; one that fails
leaves torn blocks where it was at work. -/
inductive Step (torn : Torn) (f : Flash) : (c : Cmd) → Reply c → Flash → Prop where
  | read (n) : Step torn f (.read n) (storageReadBlock f n) f
  | write (n buf) : Step torn f (.write n buf) true (f.set n ((f.cells n).program buf))
  | writeFail (n buf x) (h : torn (f.cells n) ((f.cells n).program buf) x) :
      Step torn f (.write n buf) false (f.set n x)
  | erase (n k) : Step torn f (.erase n k) true (f.setRange n k fun _ => erasedBlock)
  | eraseFail (n k) (x : ℕ → Block) (h : ∀ i, torn (f.cells i) erasedBlock (x i)) :
      Step torn f (.erase n k) false (f.setRange n k x)
  | random (size) (r : Bytes) (h : r.length = size) : Step torn f (.random size) r f

/-- No operation fails. -/
abbrev Works : Flash → (c : Cmd) → Reply c → Flash → Prop := Step fun _ _ _ => False

/-- A power loss in the middle of a command leaves torn blocks where it was at work. -/
inductive CutShort (torn : Torn) (f : Flash) : Cmd → Flash → Prop where
  | write (n buf x) (h : torn (f.cells n) ((f.cells n).program buf) x) :
      CutShort torn f (.write n buf) (f.set n x)
  | erase (n k) (x : ℕ → Block) (h : ∀ i, torn (f.cells i) erasedBlock (x i)) :
      CutShort torn f (.erase n k) (f.setRange n k x)

theorem Step.mono {torn torn' : Torn} (ht : ∀ a b x, torn a b x → torn' a b x) {f g : Flash}
    {c : Cmd} {r : Reply c} (h : Step torn f c r g) : Step torn' f c r g := by
  cases h with
  | read n => exact .read n
  | write n buf => exact .write n buf
  | writeFail n buf x h => exact .writeFail n buf x (ht _ _ _ h)
  | erase n k => exact .erase n k
  | eraseFail n k x h => exact .eraseFail n k x fun i => ht _ _ _ (h i)
  | random size r h => exact .random size r h

/-- What failed is as it was. -/
def unchanged : Torn := fun old _ x => x = old

/-- The device in which nothing fails and every random byte is zero. -/
def answer (f : Flash) : (c : Cmd) → Reply c × Flash
  | .read n => (storageReadBlock f n, f)
  | .write n buf => (true, f.set n ((f.cells n).program buf))
  | .erase n k => (true, f.setRange n k fun _ => erasedBlock)
  | .random size => (List.replicate size (0 : UInt8), f)

theorem answer_works (f : Flash) (c : Cmd) : Works f c (answer f c).1 (answer f c).2 := by
  cases c with
  | read n => exact .read n
  | write n buf => exact .write n buf
  | erase n k => exact .erase n k
  | random size => exact .random size _ (List.length_replicate ..)

end Sunela.Storage
