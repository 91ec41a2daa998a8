import Gamelan.Directive
import Gamelan.SortedMap

namespace Gamelan

/-- A beat by its place in the score. -/
abbrev BeatId := Nat

/-- A note, or a rest if it has no key, with its duration in beats. -/
structure Note where
  key? : Option UInt8
  duration : Float

/-- What one position plays in one beat. -/
structure Measure where
  notes : List Note := []
  /-- Notes that replace the others on single passes. -/
  passes : SortedMap UInt32 (List Note) := .empty

def Measure.notesOn (m : Measure) (pass : UInt32) : List Note := (m.passes.get? pass).getD m.notes

structure Beat where
  id : BeatId
  /-- The number of the gongan the beat belongs to. -/
  gongan : Nat
  /-- The number of the beat within its gongan, from one. -/
  index : Nat
  duration : Float
  measures : SortedMap Position Measure
  prev? : Option BeatId
  next? : Option BeatId

namespace Beat

/-- The beat's name for a reader of the score: the number of its gongan and its own. -/
def fullId (b : Beat) : String := s!"{b.gongan}-{b.index}"

/-- The notes of a position on a pass; a position without notation is silent. -/
def notes (b : Beat) (position : Position) (pass : UInt32) : List Note :=
  ((b.measures.get? position).map (·.notesOn pass)).getD []

end Beat

structure Gongan where
  id : Nat
  /-- Never empty in a score. -/
  beats : List BeatId
  directives : List Directive

namespace Gongan

/-- A beat by its number, which counts from one. -/
def beatAt? (g : Gongan) : Nat → Option BeatId
  | 0 => none
  | n + 1 => g.beats[n]?

def firstBeat (g : Gongan) : BeatId := g.beats.headD 0

def lastBeat (g : Gongan) : BeatId := g.beats.getLastD 0

end Gongan

/-- Beats in one row, numbered from zero, and the gongans they belong to, numbered from one. -/
structure Score where
  title? : Option String
  gongans : Array Gongan
  beats : Array Beat

namespace Score

def firstBeat? (s : Score) : Option BeatId := if s.beats.isEmpty then none else some 0

/-- The number of a beat's gongan; zero, which is no gongan's, for a beat outside the score. -/
def gonganOf (s : Score) (b : BeatId) : Nat := (s.beats[b]?).elim 0 (·.gongan)

/-- A gongan by its number. -/
def gongan? (s : Score) : Nat → Option Gongan
  | 0 => none
  | n + 1 => s.gongans[n]?

def fullId (s : Score) (b : BeatId) : String := (s.beats[b]?).elim "" (·.fullId)

/-- The beat after a beat, in the order of the score. -/
def next? (s : Score) (b : BeatId) : Option BeatId := (s.beats[b]?).bind (·.next?)

/-- The last beat of the gongan that a beat belongs to. -/
def lastBeatOf (s : Score) (b : BeatId) : BeatId := (s.gongan? (s.gonganOf b)).elim b (·.lastBeat)

/-- The beats in front of a beat within its gongan. -/
def earlierBeats (s : Score) (b : BeatId) : List BeatId :=
  match s.beats[b]? with
  | none => []
  | some beat => (s.gongan? beat.gongan).elim [] (·.beats.take (beat.index - 1))

/-- Every position that has notation somewhere, in order. -/
def positions (s : Score) : List Position :=
  (s.beats.foldl (fun (m : SortedMap Position Unit) b =>
    b.measures.keys.foldl (fun m p => m.insert p ()) m) .empty).keys

end Score

end Gamelan
