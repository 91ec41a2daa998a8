import Gamelan.Proofs.Midi.Sounds
import Gamelan.Proofs.Performance.Positions

namespace Gamelan

namespace Midi

/-- What a track is made from: its events at their ticks, in no order yet, and the tick where it ends unless an
event is later. -/
structure Timeline where
  events : List Timed
  stop : UInt32

def Timeline.track (t : Timeline) : Track := finishTrack t.events t.stop

def conductorTimeline (tick : Float → UInt32) (title : String) (beats : List (Float × Span)) : Timeline where
  events := ⟨0, 0, .trackName title⟩ :: tempoChanges none (samples tick beats).2
  stop := tick (samples tick beats).1

/-- Only notes can keep a timeline from being made. -/
def partTimeline (tick : Float → UInt32) (position : Position) (instrument : Instrument)
    (measures : List PlayedMeasure) : Except Error Timeline := do
  let events ← (partSounds tick measures).mapM (noteEvents (instrument.channel &&& 0x0f))
  return { events := partHead position instrument ++ events.flatten, stop := tick (playMeasures tick measures).1 }

theorem partTimeline_eq_if (tick : Float → UInt32) (position : Position) (instrument : Instrument)
    (measures : List PlayedMeasure) :
    partTimeline tick position instrument measures =
      if ∀ x ∈ partSounds tick measures, x.IsPlayable then
        .ok {
          events := partHead position instrument ++
            (partSounds tick measures).flatMap (Sound.events (instrument.channel &&& 0x0f))
          stop := tick (playMeasures tick measures).1 }
      else .error .overflow := by
  rw [partTimeline, mapM_noteEvents, List.flatMap_def]
  split <;> rfl

/-- A part is the track of its timeline. -/
theorem map_track_partTimeline (tick : Float → UInt32) (position : Position) (instrument : Instrument)
    (measures : List PlayedMeasure) :
    (partTimeline tick position instrument measures).map Timeline.track =
      partTrack tick position instrument measures := by
  rw [partTimeline_eq_if, partTrack_eq_if]
  split <;> rfl

end Midi

namespace Performance

open Midi

/-- The timeline of one position, from a walk for it. -/
def timeline (p : Performance) (settings : Settings) (entry : Position × Instrument) : Except Error Timeline :=
  (p.walk (some entry.1)).1.bind fun played =>
    partTimeline (toTick settings.ppq) entry.1 entry.2 (p.measures entry.1 played)

/-- The timelines of all tracks: that of the title and the tempo, and one for each position. -/
def timelines (p : Performance) (settings : Settings) : Except Error (List Timeline) := do
  let plan ← (trackPlan p.score settings).mapError .midi
  let played ← (p.walk none).1
  let rest ← plan.mapM (p.timeline settings)
  return conductorTimeline (toTick settings.ppq) (p.score.title?.getD "") (p.tempoBeats played) :: rest

namespace IsComplete

variable {p q : Performance}

/-- The parts are the tracks of their timelines, since every part begins with a reset. -/
theorem parts_fst (hq : q.IsComplete) (settings : Settings) (plan : List (Position × Instrument))
    (hreset : ∀ position?, q.reset position? = p.reset position?) :
    (parts settings plan q).1 = (plan.mapM (p.timeline settings)).map (List.map Timeline.track) := by
  induction plan generalizing q with
  | nil => rfl
  | cons entry plan ih =>
    obtain ⟨position, instrument⟩ := entry
    have hpart : (q.part settings position instrument).1 =
        (p.timeline settings (position, instrument)).map Timeline.track := by
      rw [part_congr settings instrument (hreset (some position)), part_fst, timeline]
      cases (p.walk (some position)).1 with
      | error e => rfl
      | ok played => exact (map_track_partTimeline _ _ _ _).symm
    have hrest := ih (q := (q.part settings position instrument).2) (hq.after [.walk (some position)])
      fun position? => (hq.reset_after [.walk (some position)] position?).trans (hreset position?)
    rw [parts, List.mapM_cons]
    generalize q.part settings position instrument = r at hpart hrest ⊢
    obtain ⟨out, q'⟩ := r
    simp only at hpart hrest
    subst hpart
    cases p.timeline settings (position, instrument) with
    | error e => rfl
    | ok t =>
      simp only [Except.map, hrest]
      cases plan.mapM (p.timeline settings) <;> rfl

/-- A file holds the tracks of its timelines, and fails where one of these fails. -/
theorem render_fst (hp : p.IsComplete) (settings : Settings) :
    (p.render settings).1 = (p.timelines settings).bind fun ts =>
      (fileBytes settings.ppq (ts.map Timeline.track)).mapError .midi := by
  have hconductor := p.conductor_fst settings
  have hparts (plan : List (Position × Instrument)) :=
    parts_fst (q := (p.conductor settings).2) (hp.after [.walk none]) settings plan (hp.reset_after [.walk none])
  rw [render, timelines]
  cases trackPlan p.score settings with
  | error fault => rfl
  | ok plan =>
    have hrest := hparts plan
    simp only [Except.mapError, bind, Except.bind]
    generalize p.conductor settings = r at hconductor hrest ⊢
    obtain ⟨out, q⟩ := r
    simp only at hconductor hrest
    subst hconductor
    cases (p.walk none).1 with
    | error e => rfl
    | ok played =>
      simp only [Except.map]
      generalize parts settings plan q = r at hrest ⊢
      obtain ⟨out, q'⟩ := r
      simp only at hrest
      subst hrest
      cases plan.mapM (p.timeline settings) <;> rfl

end IsComplete

/-- Every track of a file holds its events in order, each one at its tick exactly if no distance up to it has been
too long for its field; otherwise it comes too early. The same goes for the ends of the tracks. -/
theorem render_moments {s : Score} {settings : Settings} {a : Arrangement} (h : s.arrange settings = .ok a)
    (calls : List Call) (settings' : Settings) :
    (((a.performance.after calls).render settings').1 = (a.performance.timelines settings').bind fun ts =>
        (fileBytes settings'.ppq (ts.map Timeline.track)).mapError .midi) ∧
      ∀ t : Timeline, ∃ ordered, IsOrderOf t.events ordered ∧ t.track.length = (closed ordered t.stop).length ∧
        ∀ n e, (closed ordered t.stop)[n]? = some e →
          ∃ moment, (moments 0 t.track)[n]? = some (moment, e.event) ∧ moment ≤ e.tick.toNat ∧
            (moment = e.tick.toNat ↔ HaveRoom 0 (((closed ordered t.stop).take (n + 1)).map (·.tick.toNat))) := by
  have hcomplete := Score.arrange_isComplete h
  constructor
  · rw [render_fst_congr settings' (hcomplete.reset_after calls none), hcomplete.render_fst]
  · intro t
    exact moments_finishTrack t.events t.stop

/-- A file with a note that is played twice. -/
theorem render_moments_of_loop :
    let m : Manuscript := { gongans := [{
      directives := [.loop 2], beats := [{ notes := .ofList [("gangsa", [⟨some 60, 1⟩])] }, {}] }] }
    ∃ s a ts t, m.toScore = .ok s ∧ s.arrange {} = .ok a ∧ a.performance.timelines {} = .ok ts ∧
      ((a.performance.after [.next]).render {}).1 = (fileBytes 96 (ts.map Timeline.track)).mapError .midi ∧
      ts[1]? = some t ∧
      (t.events.map fun e => (e.tick, e.order)) = [(0, 0), (0, 0), (0, 2), (96, 1), (192, 2), (288, 1)] ∧
      ∃ ordered, IsOrderOf t.events ordered ∧ ∀ n e, (closed ordered t.stop)[n]? = some e →
        ∃ moment, (moments 0 t.track)[n]? = some (moment, e.event) ∧
          (moment = e.tick.toNat ↔ HaveRoom 0 (((closed ordered t.stop).take (n + 1)).map (·.tick.toNat))) := by
  intro m
  have harrangement : ∃ s a, m.toScore = .ok s ∧ s.arrange {} = .ok a ∧
      ((a.performance.timelines {}).toOption.bind (·[1]?)).map (fun t => t.events.map fun e => (e.tick, e.order)) =
        some [(0, 0), (0, 0), (0, 2), (96, 1), (192, 2), (288, 1)] :=
    Manuscript.exists_arrangement (by decide +kernel)
  obtain ⟨s, a, hs, ha, hrun⟩ := harrangement
  obtain ⟨t, hfound, hevents⟩ := Option.map_eq_some_iff.1 hrun
  obtain ⟨ts, hts, ht⟩ := Option.bind_eq_some_iff.1 hfound
  have htimelines := toOption_eq_some_iff.1 hts
  obtain ⟨hrender, htracks⟩ := render_moments ha [.next] {}
  rw [htimelines] at hrender
  obtain ⟨ordered, horder, -, hmoments⟩ := htracks t
  refine ⟨s, a, ts, t, hs, ha, htimelines, hrender, ht, hevents, ordered, horder, fun n e he => ?_⟩
  obtain ⟨moment, hmoment, -, hiff⟩ := hmoments n e he
  exact ⟨moment, hmoment, hiff⟩

end Performance

namespace Midi

/-- After a rest of 2^28 ticks a note begins at the beginning of its track. -/
theorem moments_after_long_rest :
    let t : Timeline := ⟨[⟨0, 0, .trackName "gangsa"⟩, ⟨0x10000000, 2, .noteOn 0 60 75⟩,
      ⟨0x10004000, 1, .noteOff 0 60 0⟩], 0x10004000⟩
    moments 0 t.track = [(0, .trackName "gangsa"), (0, .noteOn 0 60 75), (0x4000, .noteOff 0 60 0),
        (0x4000, .endOfTrack)] ∧
      ∀ ordered, IsOrderOf t.events ordered →
        moments 0 t.track ≠ (closed ordered t.stop).map fun e => (e.tick.toNat, e.event) := by
  intro t
  have hmoments : moments 0 t.track = [(0, .trackName "gangsa"), (0, .noteOn 0 60 75),
      (0x4000, .noteOff 0 60 0), (0x4000, .endOfTrack)] := by
    have hsorted : t.events.mergeSort Timed.isBefore = t.events := List.mergeSort_of_pairwise (by decide)
    rw [Timeline.track, finishTrack, hsorted]
    decide +kernel
  refine ⟨hmoments, ?_⟩
  intro ordered horder heq
  have hnote : ⟨0x10000000, 2, .noteOn 0 60 75⟩ ∈ ordered := horder.perm.mem_iff.2 (.tail _ (.head _))
  have hmem : (0x10000000, Event.noteOn 0 60 75) ∈ moments 0 t.track := by
    rw [heq]
    exact List.mem_map.2 ⟨_, List.mem_append_left _ hnote, rfl⟩
  rw [hmoments] at hmem
  exact absurd hmem (by decide)

end Midi

end Gamelan
