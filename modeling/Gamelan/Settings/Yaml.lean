import Gamelan.Settings
import Gamelan.Yaml.Decode

namespace Gamelan.Settings

open Yaml Yaml.Decode

def decodeInstrument (n : Node) : Decode Instrument := do
  let fs ← fields ["channel", "program"] n
  return {
    channel := UInt8.ofNat (← field fs "channel" (natural (UInt8.size - 1)))
    program := UInt8.ofNat (← fieldD fs "program" (natural (UInt8.size - 1)) 0) }

def decode (n : Node) : Decode Settings := do
  let fs ← fields
    ["ppq", "default_tempo", "default_dynamics", "max_steps", "dynamics", "instruments"] n
  let usual : Settings := {}
  return {
    ppq := UInt16.ofNat (← fieldD fs "ppq" (natural (UInt16.size - 1)) usual.ppq.toNat)
    defaultTempo := ← fieldD fs "default_tempo" int32 usual.defaultTempo
    defaultDynamics := ← fieldD fs "default_dynamics" text usual.defaultDynamics
    maxSteps := ← fieldD fs "max_steps" (natural (UInt64.size - 1)) usual.maxSteps
    dynamics := ← fieldD fs "dynamics" (table text int32) usual.dynamics
    instruments := ← fieldD fs "instruments" (table text decodeInstrument) usual.instruments }

/-- Reads settings without looking at their values. -/
def read (text : String) : Except SettingsFault Settings :=
  match decode? decode text with
  | some s => .ok s
  | none => .error .unreadable

/-- Reads settings and refuses those that no file can be written with. -/
def parse (text : String) : Except SettingsFault Settings := do
  let s ← read text
  s.validate
  return s

end Gamelan.Settings
