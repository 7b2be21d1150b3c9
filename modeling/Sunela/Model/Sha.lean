import Sunela.Lib.CString

/-! # SHA-1 and SHA-256 on the accelerator

The driver collects the message in a buffer of one block and triggers the accelerator each time
it is full. -/

namespace Sunela.Sha

def sha1BlockBytes : ℕ := 64
def sha256BlockBytes : ℕ := 64
def sha1HashBytes : ℕ := 20
def sha256HashBytes : ℕ := 32

/-! ## Registers -/

def maskCtrlMsgLen : UInt32 := (0xff : UInt32) <<< 16
def maskModeExt : UInt32 := (3 : UInt32) <<< 12
def maskHashSel : UInt32 := (1 : UInt32) <<< 6
def maskEn : UInt32 := (1 : UInt32) <<< 5
def maskMode : UInt32 := (7 : UInt32) <<< 2
def maskTrig : UInt32 := (1 : UInt32) <<< 1
def maskBusy : UInt32 := (1 : UInt32) <<< 0

def modeExtSha : UInt32 := 0
def modeSha256 : UInt32 := 0
def modeSha1 : UInt32 := 2

/-- `SHA_ADD`, for a field that starts at bit `lowest`. -/
def shaAdd (mask lowest value : UInt32) : UInt32 := mask &&& value <<< lowest

/-- `SHA_DEL` -/
def shaDel (mask : UInt32) : UInt32 := ~~~mask

/-! ## Buffer -/

/-- A buffer of one block. -/
abbrev Block := Vector UInt8 64

/-- `memcpy` to a position of the buffer. -/
def Block.write (buf : Block) (pos : ℕ) (data : Bytes) : Block :=
  Vector.ofFn fun i =>
    if pos ≤ i.val ∧ i.val < pos + data.length then data.getD (i - pos) 0 else buf[i]

/-- What the accelerator finds when it is triggered: a block, and whether it continues the hash of
the blocks before. -/
structure Trigger where
  block : Block
  hashSel : Bool
  deriving DecidableEq

/-- The control register, the variables of the driver, and the triggers so far. The buffer has the
address that the accelerator reads blocks from. -/
structure Driver where
  ctrl : UInt32
  buf : Block
  got : ℕ
  length : UInt64
  triggers : List Trigger

/-- The accelerator is triggered, and hashes the block. When it is done, its bits for the trigger
and for being busy are clear. -/
def Driver.trigger (s : Driver) : Driver :=
  let ctrl := s.ctrl ||| maskTrig
  { s with
    ctrl := ctrl &&& ~~~maskTrig &&& ~~~maskBusy
    triggers := s.triggers ++ [⟨s.buf, ctrl &&& maskHashSel ≠ 0⟩] }

/-! ## Hashing -/

def shaBegin (mode : UInt32) (s : Driver) : Driver :=
  let ctrl := s.ctrl &&& (shaDel maskModeExt &&& shaDel maskMode &&& shaDel maskCtrlMsgLen &&&
    ~~~maskHashSel &&& ~~~maskEn &&& ~~~maskTrig)
  let ctrl := ctrl ||| (shaAdd maskModeExt 12 modeExtSha ||| shaAdd maskCtrlMsgLen 16 1 |||
    shaAdd maskMode 2 mode)
  { s with ctrl := ctrl ||| maskEn, got := 0, length := 0 }

def sha1Begin (s : Driver) : Driver := shaBegin modeSha1 s

def sha256Begin (s : Driver) : Driver := shaBegin modeSha256 s

/-- The number of bytes that a round of the loop takes. The caller's data and the buffer are in
memory at the same time, so that the sum does not wrap around. -/
def Driver.this (s : Driver) (size : ℕ) : ℕ :=
  if s.got + size ≤ sha1BlockBytes then size else sha1BlockBytes - s.got

/-- The body of the loop, which stores bytes and triggers the accelerator if the block is full. -/
def Driver.collect (s : Driver) (data : Bytes) : Driver :=
  let s := { s with buf := s.buf.write s.got data, got := s.got + data.length }
  if s.got = sha1BlockBytes then
    let s := s.trigger
    { s with ctrl := s.ctrl ||| maskHashSel, got := 0 }
  else s

/-- There is no result if the loop goes on for more rounds than `fuel`. -/
def hashLoop (fuel : ℕ) (data : Bytes) (s : Driver) : Option Driver :=
  if data = [] then some s
  else
    match fuel with
    | 0 => none
    | fuel + 1 =>
        let this := s.this data.length
        hashLoop fuel (data.drop this) (s.collect (data.take this))

/-- There is no result if an assertion fails. -/
def sha1Hash (data : Bytes) (s : Driver) : Option Driver :=
  if ¬ s.got < sha1BlockBytes then none
  else hashLoop data.length data { s with length := s.length + UInt64.ofNat data.length }

def sha256Hash (data : Bytes) (s : Driver) : Option Driver :=
  if ¬ sha1BlockBytes = sha256BlockBytes then none else sha1Hash data s

/-- The result is read from the registers, which hold what the accelerator makes of its blocks. -/
def result (hashI : List Trigger → ℕ → UInt32) (triggers : List Trigger) (bytes : ℕ) : Bytes :=
  (List.range bytes).map fun i =>
    (hashI triggers (i >>> 2) >>> (UInt32.ofNat (i &&& 3) <<< 3)).toUInt8

def shaEnd (hashI : List Trigger → ℕ → UInt32) (bytes : ℕ) (s : Driver) :
    Option (Bytes × Driver) := do
  let bits := s.length <<< 3
  let s ← sha1Hash [0x80] s
  let s ← sha1Hash (List.replicate ((2 * sha1BlockBytes - 8 - s.got) % sha1BlockBytes) 0) s
  let s ← (List.range 8).foldlM
    (fun s i => sha1Hash [(bits >>> (56 - UInt64.ofNat i * 8)).toUInt8] s) s
  if s.got ≠ 0 then none
  else
    return (result hashI s.triggers bytes,
      { s with ctrl := s.ctrl &&& (~~~maskEn &&& ~~~maskHashSel) })

def sha1End (hashI : List Trigger → ℕ → UInt32) (s : Driver) : Option (Bytes × Driver) :=
  shaEnd hashI sha1HashBytes s

def sha256End (hashI : List Trigger → ℕ → UInt32) (s : Driver) : Option (Bytes × Driver) :=
  if ¬ sha1BlockBytes = sha256BlockBytes then none else shaEnd hashI sha256HashBytes s

/-! ## Callers -/

inductive Alg where
  | sha1
  | sha256
  deriving DecidableEq

def Alg.begin : Alg → Driver → Driver
  | sha1 => sha1Begin
  | sha256 => sha256Begin

def Alg.hash : Alg → Bytes → Driver → Option Driver
  | sha1 => sha1Hash
  | sha256 => sha256Hash

def Alg.finish : Alg → (List Trigger → ℕ → UInt32) → Driver → Option (Bytes × Driver)
  | sha1 => sha1End
  | sha256 => sha256End

/-- A message is hashed in parts. -/
def Alg.run (alg : Alg) (hashI : List Trigger → ℕ → UInt32) (calls : List (Alg × Bytes))
    (s : Driver) : Option (Bytes × Driver) := do
  let s ← calls.foldlM (fun s c => c.1.hash c.2 s) (alg.begin s)
  alg.finish hashI s

/-! ## HMAC -/

/-- `hmac_sha1 (res, k, k_size, c, c_size)` -/
def hmacSha1 (hashI : List Trigger → ℕ → UInt32) (k c : Bytes) (s : Driver) :
    Option (Bytes × Driver) := do
  let (key, s) ←
    if k.length > sha1BlockBytes then do
      let s ← sha1Hash k (sha1Begin s)
      sha1End hashI s
    else some (k, s)
  let key := key ++ List.replicate (sha1BlockBytes - key.length) 0
  let s ← sha1Hash (key.map (· ^^^ 0x36)) (sha1Begin s)
  let s ← sha1Hash c s
  let (hText, s) ← sha1End hashI s
  let s ← sha1Hash (key.map (· ^^^ 0x5c)) (sha1Begin s)
  let s ← sha1Hash hText s
  sha1End hashI s

end Sunela.Sha
