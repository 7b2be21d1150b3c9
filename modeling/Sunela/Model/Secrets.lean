import Mathlib.Data.Vector.Defs
import Sunela.Lib.Serial
import Sunela.Model.Block

/-! # The master secret

The master secret is the XOR of a pattern, which is derived from the PIN, and a pad on storage.
Each group of pad blocks has room for one block with pads, and a change of the PIN moves the
pads to the other group. The hash function and the scalar product are parameters. -/

namespace Sunela.Secrets

open Program Serial Storage Block

def masterSecretBytes : ℕ := 32

abbrev Secret := Vector UInt8 masterSecretBytes

/-- The bytes as a secret. Of what is missing, all are zero. -/
def secretOf (bs : Bytes) : Secret := Vector.ofFn fun i => bs.getD i 0

def xor (a b : Secret) : Secret := Vector.zipWith (· ^^^ ·) a b

/-! ## Hashes of the PIN -/

/-- The functions that the hashes of a PIN are made of. -/
structure Hashes where
  sha256 : Bytes → Secret
  cryptoBoxBeforenm : (pk sk : Secret) → Secret

/-- The secret of the device, which is not yet taken from protected storage. -/
def deviceSecret : Secret := Vector.replicate _ 0

/-- The PIN as a little-endian integer. -/
def pinBytes (pin : UInt32) : Bytes :=
  [pin.toUInt8, (pin >>> 8).toUInt8, (pin >>> 16).toUInt8, (pin >>> 24).toUInt8]

def mult (H : Hashes) (n p : Secret) : Secret := H.cryptoBoxBeforenm p n

def masterHash (H : Hashes) (pin : UInt32) : Secret :=
  let a := H.sha256 (pinBytes pin)
  let b := H.sha256 (deviceSecret.toList ++ a.toList)
  let c := H.sha256 (a.toList ++ deviceSecret.toList)
  H.sha256 (mult H b c).toList

def idHash (H : Hashes) (pin : UInt32) : Secret :=
  let a := H.sha256 (pinBytes pin)
  let b := H.sha256 (deviceSecret.toList ++ pinBytes pin)
  let c := mult H a b
  let d := mult H b a
  H.sha256 ((H.sha256 (c.toList ++ d.toList)).toList ++ c.toList)

/-! ## Pad blocks

A pad block begins with its sequence number, and has slots for pads from byte 32 on. A slot is
the identifier of a PIN and the pad for it. -/

/-- The first blocks of the groups for pads. -/
def padStarts : List ℕ :=
  (List.range (padBlocks / storageEraseSize)).map (· * storageEraseSize)

def slotBytes : ℕ := 2 * masterSecretBytes

def padSeq (b : Block) : UInt16 := seqOfBytes (b.bytes.getD 0 0) (b.bytes.getD 1 0)

/-- The part of a block that holds the slots. -/
def pads (b : Block) : Bytes := b.bytes.drop masterSecretBytes

def slot (pads : Bytes) (i : ℕ) : Bytes := (pads.drop (slotBytes * i)).take slotBytes

def slotId (pads : Bytes) (i : ℕ) : Bytes := (slot pads i).take masterSecretBytes

def slotPad (pads : Bytes) (i : ℕ) : Bytes := (slot pads i).drop masterSecretBytes

/-- The positions of the slots that fit. -/
def slots (pads : Bytes) : List ℕ := List.range (pads.length / slotBytes)

/-- The first slot with an identifier. -/
def findPad (pads : Bytes) (id : Secret) : Option ℕ :=
  (slots pads).find? fun i => slotId pads i = id.toList

def findErased (pads : Bytes) : Option ℕ :=
  (slots pads).find? fun i => slot pads i = List.replicate slotBytes 0xff

/-- The secret that a block gives, unless the pads of a newer one have been found already. -/
def applyPad (pattern : Secret) (lastSeq : Option UInt16) (b : Block) (id : Secret) :
    Option Secret :=
  if lastSeq.any fun last => Behind 0x8000 (padSeq b).toNat last.toNat then none
  else (findPad (pads b) id).map fun i => xor pattern (secretOf (slotPad (pads b) i))

/-- Put a pad in the slot of the old identifier or else in one that is erased. -/
def changePad (pads : Bytes) (oldId newId newPad : Secret) : Option Bytes :=
  ((findPad pads oldId).or (findErased pads)).map fun i =>
    pads.take (slotBytes * i) ++
      (newId.toList ++ newPad.toList ++ pads.drop (slotBytes * i + slotBytes))

/-- The first bytes of a pad block. -/
def padHeader (seq : UInt16) : Bytes := seqBytes seq ++ List.replicate (masterSecretBytes - 2) 0xff

/-- A block that begins with some bytes and is erased behind them. -/
def blockOf (bs : Bytes) : Block :=
  ⟨(bs ++ List.replicate storageBlockSize 0xff).take storageBlockSize, by
    rw [List.length_take, List.length_append, List.length_replicate]
    omega⟩

/-! ## Management of secrets -/

/-- The static variables of `secrets.c`, except for those that are cleared after use. -/
structure Vars where
  masterSecret : Secret
  havePad : Bool
  padSeq : UInt16
  padBlock : Option ℕ
  deriving DecidableEq

/-- The variables after a power cycle. -/
def Vars.initial : Vars :=
  { masterSecret := Vector.replicate _ 0, havePad := false, padSeq := 0, padBlock := none }

/-- A secret that has been found, with the block of its pad. -/
structure Found where
  secret : Secret
  seq : UInt16
  block : ℕ
  deriving DecidableEq

def setupLoop (f : Flash) (pattern id : Secret) : List ℕ → Option Found → Option Found
  | [], found => found
  | n :: ns, found =>
      match storageReadBlock f n with
      | none => setupLoop f pattern id ns found
      | some b =>
          match applyPad pattern (found.map Found.seq) b id with
          | none => setupLoop f pattern id ns found
          | some secret => setupLoop f pattern id ns (some ⟨secret, padSeq b, n⟩)

/-- The result of `secrets_setup` on a storage, which also sets `pad_seq` if there is one. -/
def secretsSetup (H : Hashes) (f : Flash) (pin : UInt32) : Option Found :=
  setupLoop f (masterHash H pin) (idHash H pin) padStarts none

def secretsSetupMaster (H : Hashes) (f : Flash) (v : Vars) (pin : UInt32) : Bool × Vars :=
  match secretsSetup H f pin with
  | none => (false, { v with havePad := false, padBlock := none })
  | some r =>
      (true,
        { masterSecret := r.secret, havePad := true, padSeq := r.seq, padBlock := some r.block })

def secretsInit (v : Vars) : Vars :=
  { v with masterSecret := Vector.replicate _ 0, havePad := false }

/-- The loop that picks the block for the new pads, and tells whether the group of the block
counts as erased. It reads the block with the old pads each time, not the one in question. -/
def newBlock (padBlock : ℕ) : List ℕ → Option (UInt16 × ℕ) → Fw (Option (ℕ × Bool))
  | [], best => return best.map fun r => (r.2, false)
  | n :: ns, best => do
      if n = padBlock then newBlock padBlock ns best
      else
        match ← Prog.exec (Cmd.read padBlock) with
        | none => newBlock padBlock ns best
        | some b =>
            if b = erasedBlock then return some (n, true)
            else if best.all fun r => padSeq b < r.1 then
              newBlock padBlock ns (some (padSeq b, n))
            else newBlock padBlock ns best

/-- The block with the changed pads. -/
def changedBlock (H : Hashes) (v : Vars) (b : Block) (oldPin newPin : UInt32) : Option Block :=
  (changePad (pads b) (idHash H oldPin) (idHash H newPin)
    (xor (masterHash H newPin) v.masterSecret)).map fun pads =>
      blockOf (padHeader (v.padSeq + 1) ++ pads)

def secretsChange (H : Hashes) (v : Vars) (oldPin newPin : UInt32) : Fw (Bool × Vars) :=
  match v.havePad, v.padBlock with
  | true, some padBlock => do
      match ← newBlock padBlock padStarts none with
      | none => return (false, v)
      | some (n, erased) => do
          let ready ← if erased then (return true) else storageEraseBlocks n storageEraseSize
          if !ready then return (false, v)
          else
            match ← Prog.exec (Cmd.read padBlock) with
            | none => return (false, v)
            | some b =>
                match changedBlock H v b oldPin newPin with
                | none => return (false, v)
                | some buf => do
                    if !(← storageWriteBlock buf n) then return (false, v)
                    else if !(← storageEraseBlocks padBlock storageEraseSize) then return (false, v)
                    else return (true, { v with padBlock := some n, padSeq := v.padSeq + 1 })
  | _, _ => .halt

/-- Erase all groups for pads, as far as that is possible. -/
def erasePads : List ℕ → Fw Unit
  | [] => return ()
  | n :: ns => do
      let _ ← storageEraseBlocks n storageEraseSize
      erasePads ns

def secretsNew (H : Hashes) (v : Vars) (pin : UInt32) : Fw (Bool × Vars) := do
  erasePads padStarts
  let secret := secretOf (← rndBytes masterSecretBytes)
  let buf := blockOf (padHeader 0 ++ ((idHash H pin).toList ++
    (xor (masterHash H pin) secret).toList))
  let v := { v with masterSecret := secret, padBlock := some 0 }
  if !(← storageWriteBlock buf 0) then return (false, v)
  else return (true, { v with havePad := true })

end Sunela.Secrets
