import Sunela.Lib.CString
import Sunela.Lib.Serial

/-! # Settings record -/

namespace Sunela.Database

open Serial

/-- `struct settings`, with the sequence number of the record it was taken from. -/
structure Settings where
  crosshair : Bool
  strictRmt : Bool
  haveSettings : Bool
  settingsSeq : UInt16
  deriving DecidableEq

def stFlags : UInt8 := 1

def sfCrosshair : UInt8 := 1

def sfStrictRmt : UInt8 := 2

/-- The settings of `settings_reset`. -/
def settingsReset (s : Settings) : Settings :=
  { s with crosshair := false, strictRmt := false, haveSettings := false }

/-- The flags of a payload, or nothing if it is invalid. A flags item without data takes its
flags from the byte behind it, which is zero if the payload ends there. -/
def parseSettings (fuel : ℕ) (p : Bytes) (flags : UInt8) : Option UInt8 :=
  match fuel, p with
  | _, [] => some flags
  | 0, _ => none
  | fuel + 1, type :: rest =>
      if type = 0 then some flags
      else
        match rest with
        | [] => none
        | len :: v =>
            if v.length < len.toNat ∨ type ≠ stFlags then none
            else parseSettings fuel (v.drop len.toNat) (v.headD 0)

def settingsProcess (s : Settings) (seq : UInt16) (payload : Bytes) : Option Settings :=
  if s.haveSettings ∧ Behind 0x8000 seq.toNat s.settingsSeq.toNat then some s
  else
    (parseSettings payload.length payload 0).map fun flags =>
      { crosshair := flags &&& sfCrosshair ≠ 0
        strictRmt := flags &&& sfStrictRmt ≠ 0
        haveSettings := true
        settingsSeq := seq }

/-- The sequence number and the payload with which `settings_update` stores the settings. -/
def settingsUpdate (s : Settings) : Settings × Bytes :=
  let flags : UInt8 :=
    (if s.crosshair then sfCrosshair else 0) ||| (if s.strictRmt then sfStrictRmt else 0)
  ({ s with settingsSeq := s.settingsSeq + 1 }, if flags ≠ 0 then [stFlags, 1, flags] else [])

/-! ## Reading settings from their payload

The parser with the addresses at which it reads. The payload begins at address 0. A loop that does
not end within the given number of rounds has no result. -/

/-- A byte that is read: one that starts an item, or one that is used as part of a value. -/
inductive Access where
  | header (a : ℕ)
  | value (v len a : ℕ)
  deriving DecidableEq

/-- The loop of `settings_process`, with what it has read: the flags, or nothing if the payload
is invalid. -/
def parseSettingsAt (mem : ℕ → UInt8) (size p : ℕ) (flags : UInt8) :
    ℕ → Option (Option UInt8 × List Access)
  | 0 => none
  | rounds + 1 =>
      if p ≥ size then some (some flags, [])
      else if mem p = 0 then some (some flags, [.header p])
      else if p + 2 > size then some (none, [.header p])
      else
        let type := mem p
        let len := (mem (p + 1)).toNat
        let v := p + 2
        if v + len > size then some (none, [.header p, .header (p + 1)])
        else if type = stFlags then
          (parseSettingsAt mem size (v + len) (mem v) rounds).map fun r =>
            (r.1, .header p :: .header (p + 1) :: .value v len v :: r.2)
        else some (none, [.header p, .header (p + 1)])

/-- `settings_process`: its result, the settings in force afterwards, and what it has read. -/
def settingsProcessAt (s : Settings) (seq : UInt16) (mem : ℕ → UInt8) (size : ℕ) :
    Option (Bool × Settings × List Access) :=
  if s.haveSettings ∧ Behind 0x8000 seq.toNat s.settingsSeq.toNat then some (true, s, [])
  else
    (parseSettingsAt mem size 0 0 (size + 1)).map fun r =>
      match r.1 with
      | none => (false, s, r.2)
      | some flags =>
          (true,
            { crosshair := flags &&& sfCrosshair ≠ 0
              strictRmt := flags &&& sfStrictRmt ≠ 0
              haveSettings := true
              settingsSeq := seq }, r.2)

end Sunela.Database
