import Gamelan.Error
import Gamelan.SortedMap

namespace Gamelan

/-- The channel and the sound that a position is played with. -/
structure Instrument where
  channel : UInt8
  program : UInt8 := 0
  deriving DecidableEq, Repr

/-- The velocities of the usual dynamics marks. -/
def standardDynamics : SortedMap String Int32 :=
  .ofList [("ppp", 15), ("pp", 30), ("p", 45), ("mp", 60), ("mf", 75), ("f", 90), ("ff", 105), ("fff", 120)]

structure Settings where
  /-- Ticks per beat. -/
  ppq : UInt16 := 96
  /-- The tempo in front of the first change. -/
  defaultTempo : Int32 := 60
  /-- The dynamics in front of the first change. -/
  defaultDynamics : String := "mf"
  /-- How many beats a performance may take. -/
  maxSteps : Nat := 100000
  dynamics : SortedMap String Int32 := standardDynamics
  /-- The positions to render; without any, those of the score. -/
  instruments : SortedMap Position Instrument := .empty
  deriving DecidableEq

namespace Settings

def velocityFor? (s : Settings) (mark : String) : Option Int32 := s.dynamics.get? mark

/-- The velocity in front of the first change; a mark that is not in the table counts as 64. -/
def defaultVelocity (s : Settings) : Int32 := (s.velocityFor? s.defaultDynamics).getD 64

def checkInstrument (position : Position) (i : Instrument) : Except SettingsFault Unit :=
  if 15 < i.channel then .error (.channel position i.channel)
  else if 127 < i.program then .error (.program position i.program)
  else .ok ()

/-- Refuses settings that no file can be written with. -/
def validate (s : Settings) : Except SettingsFault Unit := do
  if s.ppq == 0 || 0x7fff < s.ppq then throw (.ppq s.ppq)
  if !Quantity.isTempo s.defaultTempo then throw (.defaultTempo s.defaultTempo)
  if s.maxSteps == 0 then throw .maxSteps
  if let some (mark, v) := s.dynamics.entries.find? fun (_, v) => !Quantity.isVelocity v then
    throw (.velocity mark v)
  if (s.velocityFor? s.defaultDynamics).isNone then throw (.defaultDynamics s.defaultDynamics)
  s.instruments.entries.forM fun (position, i) => checkInstrument position i

end Settings

end Gamelan
