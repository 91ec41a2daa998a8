import Gamelan.Midi.File
import Gamelan.Midi.Part
import Gamelan.Midi.Plan

namespace Gamelan.Performance

open Midi

def duration (p : Performance) (b : BeatId) : Float := (p.score.beats[b]?).elim 0 (·.duration)

/-- The durations and tempos of performed beats. -/
def tempoBeats (p : Performance) (played : Array Played) : List (Float × Span) :=
  played.toList.map fun b => (p.duration b.beat, b.tempo)

/-- What a position plays on performed beats. -/
def measures (p : Performance) (position : Position) (played : Array Played) : List PlayedMeasure :=
  played.toList.map fun b => {
    duration := p.duration b.beat
    dynamics := b.dynamics
    notes := (p.score.beats[b.beat]?).elim [] (·.notes position b.pass) }

def conductor (p : Performance) (settings : Settings) : Except Error Track × Performance :=
  let (played, p) := p.walk none
  (played.map fun played =>
    conductorTrack (toTick settings.ppq) (p.score.title?.getD "") (p.tempoBeats played), p)

def part (p : Performance) (settings : Settings) (position : Position) (instrument : Instrument) :
    Except Error Track × Performance :=
  let (played, p) := p.walk (some position)
  (played.bind fun played =>
    partTrack (toTick settings.ppq) position instrument (p.measures position played), p)

def parts (settings : Settings) :
    List (Position × Instrument) → Performance → Except Error (List Track) × Performance
  | [], p => (.ok [], p)
  | (position, instrument) :: rest, p =>
    match p.part settings position instrument with
    | (.error e, p) => (.error e, p)
    | (.ok track, p) =>
      let (tracks, p) := parts settings rest p
      (tracks.map (track :: ·), p)

/-- The bytes of the file, or the first fault on the way to them. -/
def render (p : Performance) (settings : Settings) : Except Error Bytes × Performance :=
  match trackPlan p.score settings with
  | .error fault => (.error (.midi fault), p)
  | .ok plan =>
    match p.conductor settings with
    | (.error e, p) => (.error e, p)
    | (.ok first, p) =>
      match parts settings plan p with
      | (.error e, p) => (.error e, p)
      | (.ok rest, p) => ((fileBytes settings.ppq (first :: rest)).mapError .midi, p)

end Gamelan.Performance
