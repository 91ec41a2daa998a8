import Gamelan.Proofs.Arrangement.Flow
import Gamelan.Proofs.Midi.Timeline
import Gamelan.Proofs.Performance.History
import Gamelan.Proofs.Performance.Timing

namespace Gamelan

/-- Only ramps of the dynamics look at positions. -/
theorem Score.arrange_tempo_isForAll {s : Score} {settings : Settings} {a : Arrangement}
    (h : s.arrange settings = .ok a) : a.performance.tempo.IsForAll := by
  refine Score.arrange_invariant h ?_ ?_ ?_ ?_ (I := fun p => p.tempo.IsForAll)
  · intro p hp
    obtain ⟨tempo, dynamics, htempo, -, rfl⟩ := Score.plain_eq_ok_iff.1 hp
    rw [Performance.createJumps_eq]
    exact Schedule.ofDefault_isForAll htempo
  · exact fun p b f _ hp => hp
  · exact fun p g count _ _ hp => hp
  · intro p quantity b r hset hp
    cases quantity with
    | tempo => exact hp.add b (hset.positions rfl)
    | dynamics => exact hp

namespace Performance

/-- Walks of one performance for any positions agree on flow and tempo. -/
theorem walk_timing_congr {p q : Performance} (h : SameTiming p q) (position? position'? : Option Position) :
    (p.walk position?).1.map (·.map Played.timing) = (q.walk position'?).1.map (·.map Played.timing) :=
  walk_map_congr (fun _ _ h => h.next) (fun _ _ b h => h.played b)
    (h.reset position? position'?)

theorem walk_flow_congr {p q : Performance} (hp : p.IsComplete) (hq : q.IsComplete) (h : p.bare = q.bare)
    (position? position'? : Option Position) :
    (p.walk position?).1.map (·.map Played.flow) = (q.walk position'?).1.map (·.map Played.flow) := by
  refine walk_map_congr (R := fun p q => p.IsComplete ∧ q.IsComplete ∧ p.bare = q.bare) ?_ ?_
    ⟨hp.reset position?, hq.reset position'?, reset_bare_congr h position? position'?⟩
  · rintro p q ⟨hp, hq, h⟩
    obtain ⟨hout, hbare⟩ := next_bare_congr hp hq h
    exact ⟨hout, hp.next, hq.next, hbare⟩
  · rintro p q b ⟨-, -, h⟩
    exact played_flow_congr h b

open Midi

section

variable (p : Performance)

theorem walk_snd_score (position? : Option Position) : (p.walk position?).2.score = p.score :=
  walk_invariant (I := fun q => q.score = p.score) (fun _ _ hq => hq) (fun q hq => q.next_score.trans hq) position? rfl

theorem conductor_fst (settings : Settings) :
    (p.conductor settings).1 = (p.walk none).1.map fun played =>
      conductorTrack (toTick settings.ppq) (p.score.title?.getD "") (p.tempoBeats played) := by
  have hkept := p.walk_snd_score none
  rw [conductor]
  cases hwalk : p.walk none with
  | mk out q =>
    have hscore : q.score = p.score := by rwa [hwalk] at hkept
    cases out with
    | error e => simp only [Except.map]
    | ok played => simp only [Except.map, tempoBeats, duration, hscore]

theorem part_fst (settings : Settings) (position : Position) (instrument : Instrument) :
    (p.part settings position instrument).1 = (p.walk (some position)).1.bind fun played =>
      partTrack (toTick settings.ppq) position instrument (p.measures position played) := by
  have hkept := p.walk_snd_score (some position)
  rw [part]
  cases hwalk : p.walk (some position) with
  | mk out q =>
    have hscore : q.score = p.score := by rwa [hwalk] at hkept
    cases out with
    | error e => simp only [Except.bind]
    | ok played => simp only [Except.bind, measures, duration, hscore]

variable {p} {settings : Settings} {track : Track}

theorem conductor_eq_ok_iff : (p.conductor settings).1 = .ok track ↔ ∃ played, (p.walk none).1 = .ok played ∧
    conductorTrack (toTick settings.ppq) (p.score.title?.getD "") (p.tempoBeats played) = track := by
  rw [conductor_fst, map_eq_ok_iff]

theorem part_eq_ok_iff {position : Position} {instrument : Instrument} :
    (p.part settings position instrument).1 = .ok track ↔ ∃ played, (p.walk (some position)).1 = .ok played ∧
      partTrack (toTick settings.ppq) position instrument (p.measures position played) = .ok track := by
  rw [part_fst]
  exact bind_eq_ok_iff

end

/-- The durations of performed beats, which are what the tempo and every part are laid out on. -/
def durations (p : Performance) (played : Array Played) : List Float := played.toList.map (p.duration ·.beat)

theorem tempoBeats_durations (p : Performance) (played : Array Played) :
    (p.tempoBeats played).map (·.1) = p.durations played := by
  simp [tempoBeats, durations]

theorem measures_durations (p : Performance) (position : Position) (played : Array Played) :
    (p.measures position played).map (·.duration) = p.durations played := by
  simp [measures, durations]

/-- Walks that agree in timing agree in durations. -/
theorem durations_congr (p : Performance) {played played' : Array Played}
    (h : played.map Played.timing = played'.map Played.timing) : p.durations played = p.durations played' := by
  have hbeats := congrArg (fun bs => bs.toList.map fun b => p.duration b.1.1) h
  simpa [durations, Function.comp_def, Played.timing, Played.flow] using hbeats

/-- Flow and tempo are the same for every position and for none, whatever has been asked of the performance
before: the walks succeed with beats that differ in dynamics only, or they all exceed the limit. Changes of
tempo and dynamics have no influence on the flow. In a file, the tempo and every part are laid out on the
starts that one list of durations gives. -/
theorem walk_independent_of_position {s : Score} {settings : Settings} {a : Arrangement}
    (h : s.arrange settings = .ok a) :
    (∀ calls calls' position? position'?,
      ((a.performance.after calls).walk position?).1.map (·.map Played.timing) =
          ((a.performance.after calls').walk position'?).1.map (·.map Played.timing) ∧
        ∀ e, ((a.performance.after calls).walk position?).1 = .error e → e = .stepLimit settings.maxSteps) ∧
      (∃ b, s.withoutChanges.arrange settings = .ok b ∧ ∀ position? position'?,
        (b.performance.walk position?).1.map (·.map Played.flow) =
          (a.performance.walk position'?).1.map (·.map Played.flow)) ∧
      ∀ played, (a.performance.walk none).1 = .ok played → ∀ calls settings',
        ((a.performance.after calls).conductor settings').1 =
            .ok (conductorAt (toTick settings'.ppq) (s.title?.getD "") (a.performance.durations played)
              (a.performance.tempoBeats played)) ∧
          ∀ position instrument, ∃ played', (a.performance.walk (some position)).1 = .ok played' ∧
            ((a.performance.after calls).part settings' position instrument).1 =
              partAt (toTick settings'.ppq) position instrument (a.performance.durations played)
                (a.performance.measures position played') := by
  have hcomplete := Score.arrange_isComplete h
  have hreset := hcomplete.reset_after
  obtain ⟨hscore, hlimit⟩ := Score.arrange_score h
  have hsame : SameTiming a.performance a.performance :=
    ⟨hcomplete, hcomplete, rfl, rfl, Score.arrange_tempo_isForAll h⟩
  refine ⟨?_, ?_, ?_⟩
  · intro calls calls' position? position'?
    rw [walk_congr (hreset calls position?), walk_congr (hreset calls' position'?)]
    refine ⟨walk_timing_congr hsame position? position'?, ?_⟩
    intro e he
    rw [hcomplete.walk_error he, hlimit]
  · obtain ⟨b, hb, hbare⟩ := Score.arrange_withoutChanges h
    refine ⟨b, hb, ?_⟩
    intro position? position'?
    exact walk_flow_congr (Score.arrange_isComplete hb) hcomplete hbare.symm position? position'?
  · intro played hwalk calls settings'
    constructor
    · rw [conductor_congr settings' (hreset calls none), conductor_fst, hwalk, hscore, Except.map,
        conductorTrack_eq, tempoBeats_durations]
    · intro position instrument
      have htiming := walk_timing_congr hsame none (some position)
      rw [hwalk] at htiming
      cases hwalk' : (a.performance.walk (some position)).1 with
      | error e => simp [hwalk', Except.map] at htiming
      | ok played' =>
        rw [hwalk'] at htiming
        have hdurations := a.performance.durations_congr (Except.ok.inj htiming)
        refine ⟨played', rfl, ?_⟩
        rw [part_congr settings' instrument (hreset calls (some position)), part_fst, hwalk', Except.bind,
          partTrack_eq, measures_durations, hdurations]

/-- Tempo and dynamics move in a loop, the dynamics for one position only. -/
theorem walk_independent_of_position_one_louder :
    let m : Manuscript := { gongans := [
      { directives := [.label "A" 2, .loop 2, .tempo 90 { beatCount := 2 },
          .dynamics "ff" { iterations := [2] } ["reyong"]],
        beats := [{}, {}] },
      { directives := [.goto "A" none [1] none], beats := [{}] }] }
    ∃ s a, m.toScore = .ok s ∧ s.arrange {} = .ok a ∧
      ((a.performance.after [.next]).walk (some "reyong")).1.map (·.map Played.timing) =
        ((a.performance.after [.render {}]).walk none).1.map (·.map Played.timing) := by
  intro m
  have harrangement : ∃ s a, m.toScore = .ok s ∧ s.arrange {} = .ok a ∧ True :=
    Manuscript.exists_arrangement (by decide +kernel)
  obtain ⟨s, a, hs, ha, -⟩ := harrangement
  exact ⟨s, a, hs, ha, ((walk_independent_of_position ha).1 [.next] [.render {}] (some "reyong") none).1⟩

end Performance

end Gamelan
