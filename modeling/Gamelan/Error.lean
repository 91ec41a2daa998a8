import Gamelan.Decimal.Shortest
import Gamelan.Directive
import Gamelan.Quantity

namespace Gamelan

/-- Faults of a score. Beats are given by the number of their gongan and their own. -/
inductive ScoreFault where
  /-- The text does not hold a score at all. -/
  | unreadable
  | emptyGongan (gongan : Nat)
  | beatDuration (gongan beat : Nat) (duration : Float)
  | noteDuration (gongan beat : Nat) (position : Position) (duration : Float)
  | noteKey (gongan beat : Nat) (position : Position) (key : UInt8)
  | overfull (gongan beat : Nat) (position : Position) (total duration : Float)
  | passZero (gongan beat : Nat)

def ScoreFault.message : ScoreFault → String
  | unreadable => "the text is not a score"
  | emptyGongan g => s!"gongan {g} has no beats"
  | beatDuration g b d => s!"beat {g}-{b} has invalid duration {Decimal.text d}"
  | noteDuration g b p d => s!"beat {g}-{b} ({p}) has a note with invalid duration {Decimal.text d}"
  | noteKey g b p k => s!"beat {g}-{b} ({p}) has key Some({k}) outside the MIDI range"
  | overfull g b p total d =>
    s!"beat {g}-{b} ({p}) holds {Decimal.text total} beats of notes but lasts {Decimal.text d}"
  | passZero g b => s!"beat {g}-{b} has notation for pass 0; passes start at 1"

inductive SettingsFault where
  /-- The text does not hold settings at all. -/
  | unreadable
  /-- There is no such file. -/
  | missing (path : String)
  | ppq (value : UInt16)
  | defaultTempo (value : Int32)
  | maxSteps
  | velocity (mark : String) (value : Int32)
  | defaultDynamics (mark : String)
  | channel (position : Position) (value : UInt8)
  | program (position : Position) (value : UInt8)

def SettingsFault.message : SettingsFault → String
  | unreadable => "the text is not a settings file"
  | missing path => s!"cannot read '{path}'"
  | ppq v => s!"ppq must be between 1 and 32767, got {v}"
  | defaultTempo v => s!"default_tempo must be between 4 and 1000, got {v}"
  | maxSteps => "max_steps must be positive"
  | velocity m v => s!"velocity for dynamics '{m}' must be 0-127, got {v}"
  | defaultDynamics m => s!"default_dynamics '{m}' is not in the dynamics table"
  | channel p v => s!"channel for '{p}' must be 0-15, got {v}"
  | program p v => s!"program for '{p}' must be 0-127, got {v}"

inductive RampFault where
  | negativeLength (length : Int32)
  | target (quantity : Quantity) (value : Int32)

def RampFault.message : RampFault → String
  | negativeLength n => s!"ramp length must not be negative, got {n}"
  | target q v => s!"{q.name} target {v} is out of range"

inductive MidiFault where
  | noChannel (position : Position)
  | tooManyTracks
  | trackTooLong
  | nameTooLong

def MidiFault.message : MidiFault → String
  | noChannel p => s!"no MIDI channel left for position '{p}'"
  | tooManyTracks => "failed to write MIDI: track count exceeds 16 bits"
  | trackTooLong => "failed to write MIDI: midi chunk size exceeds 32 bits"
  | nameTooLong => "failed to write MIDI: event length exceeds 28 bits"

/-- Faults of one directive, which is then left out. -/
inductive DirectiveFault where
  | labelBeat (name : String) (beat : Nat)
  | labelTwice (name : String)
  | undefinedLabel (name : String)
  | gotoBeat (label : String) (beat : Nat)
  | gotoCycle (label : String)
  | gotoPass (label : String) (pass cycle : UInt32)
  | loopCount
  | loopTwice
  | sequencePass (pass : UInt32) (beat : String) (cycle : UInt32)
  /-- A sequence needs the pass after the last one that can be counted. This is not reported: it stops the program. -/
  | overflow
  | unknownDynamics (mark : String)
  | rampBeat (quantity : Quantity) (beat : Nat)
  | rampEnd (quantity : Quantity) (beatCount : Int32) (firstBeat length : Nat)
  | ramp (fault : RampFault)

/-- The wording of a fault of a ramp wherever it stands. -/
def RampFault.fullMessage (f : RampFault) : String := s!"Invalid gradual change: {f.message}"

def DirectiveFault.message : DirectiveFault → String
  | labelBeat n b => s!"label '{n}' refers to beat {b} which does not exist"
  | labelTwice n => s!"label '{n}' is defined more than once"
  | undefinedLabel n => s!"undefined label '{n}'"
  | gotoBeat l b => s!"goto '{l}' starts from beat {b} which does not exist"
  | gotoCycle l => s!"goto '{l}' has a cycle of 0"
  | gotoPass l p c => s!"goto '{l}' uses pass {p} which never occurs with cycle {c}"
  | loopCount => "loop count must be at least 1"
  | loopTwice => "gongan has more than one loop"
  | sequencePass p b c => s!"sequence needs pass {p} at beat {b} whose cycle is {c}"
  | overflow => "attempt to add with overflow"
  | unknownDynamics m => s!"unknown dynamics '{m}'"
  | rampBeat q b => s!"{q.name} change starts at beat {b} which does not exist"
  | rampEnd q n first length =>
    s!"{q.name} change over {n} beats from beat {first} runs past the end of the gongan ({length} beats)"
  | ramp f => f.fullMessage

def DirectiveFault.isOverflow : DirectiveFault → Bool
  | overflow => true
  | _ => false

inductive Error where
  | score (fault : ScoreFault)
  | settings (fault : SettingsFault)
  | directive (gongan : Nat) (fault : DirectiveFault)
  | ramp (fault : RampFault)
  /-- A performance took more than `limit` beats. -/
  | stepLimit (limit : Nat)
  /-- A performance was continued after its end. -/
  | finished
  | midi (fault : MidiFault)
  /-- A sum is too large for its number. No fault is reported, and the program stops where it is. -/
  | overflow

def Error.message : Error → String
  | score f => s!"Invalid score: {f.message}"
  | settings f => s!"Invalid settings: {f.message}"
  | directive g f => s!"Metadata error in gongan {g}: {f.message}"
  | ramp f => f.fullMessage
  | stepLimit n => s!"Traversal exceeded {n} beats; the score's flow never reaches its end"
  | finished => "Traversal already finished; call reset_all before walking the score again"
  | midi f => s!"MIDI error: {f.message}"
  | overflow => "attempt to add with overflow"

end Gamelan
