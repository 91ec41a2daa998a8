import Gamelan.Midi.Track
import Gamelan.Performance

namespace Gamelan.Midi

/-- The nearest whole number. Half-way between two it is the one further from zero, and from 2^52 on all are whole. -/
def nearest (x : Float) : Float :=
  if x.abs < 4503599627370496 then
    let below := x.abs.toUInt64.toFloat
    let near := if x.abs - below < 0.5 then below else below + 1
    if x < 0 then -near else near
  else x

example : [0.5, 1.5, -2.5, 0.49999999999999994, 1e300].map nearest = [1, 2, -3, 0, 1e300] := by decide +kernel

/-- The nearest whole number among those of 32 bits. What is no number at all counts as zero. -/
def nearestInt (x : Float) : Int :=
  let size : Int := (nearest x).abs.toUInt64.toNat
  max (-2147483648) (min (if x < 0 then -size else size) 2147483647)

/-- A value part of the way from the start of a span to its end, to the nearest whole number. Far beyond the end it has
no room in 32 bits any more. -/
def interpolate (span : Span) (fraction : Float) : Int :=
  span.start.toInt + nearestInt (Float.ofInt (span.stop.toInt - span.start.toInt) * fraction)

example : interpolate ⟨60, 75⟩ 0.25 = 64 ∧ interpolate ⟨75, 60⟩ 0.5 = 67 ∧ 2147483647 < interpolate ⟨60, 75⟩ 1e9 := by
  decide +kernel

/-- The tick at a time in beats. -/
def toTick (ppq : UInt16) (beats : Float) : UInt32 := (nearest (beats * ppq.toFloat)).toUInt32

/-- The tempo at a tick, in beats per minute. -/
structure Sample where
  tick : UInt32
  bpm : Int32
  deriving DecidableEq, Repr

/-- The samples of a beat that begins at a time, for a rule that turns times into ticks. They are in front of the end of
the span, so its 32 bits are enough. -/
def beatSamples (tick : Float → UInt32) (start duration : Float) (span : Span) : List Sample :=
  let count : Nat := if span.start = span.stop then 1 else 4
  (List.range count).map fun step =>
    let fraction := step.toFloat / count.toFloat
    ⟨tick (start + duration * fraction), max (interpolate span fraction).toInt32 1⟩

/-- The samples of beats with their durations, and the time when the last one ends. -/
def samples (tick : Float → UInt32) (beats : List (Float × Span)) : Float × List Sample :=
  sweep (fun start (duration, span) => (start + duration, beatSamples tick start duration span)) 0 beats

/-- A minute in microseconds, divided among the beats of a minute, in the 24 bits of a tempo event. -/
def beatLength (bpm : Int32) : UInt32 := (60000000 / bpm.toUInt32) &&& 0x00ffffff

/-- The tempo events of samples after a tempo that is set already. -/
def tempoChanges (before? : Option Int32) (samples : List Sample) : List Timed :=
  (sweep (fun before? s =>
    if before? = some s.bpm then (before?, [])
    else (some s.bpm, [⟨s.tick, 1, .tempo (beatLength s.bpm)⟩])) before? samples).2

/-- The track of the title and the tempo. -/
def conductorTrack (tick : Float → UInt32) (title : String) (beats : List (Float × Span)) : Track :=
  let (stop, samples) := samples tick beats
  finishTrack (⟨0, 0, .trackName title⟩ :: tempoChanges none samples) (tick stop)

end Gamelan.Midi
