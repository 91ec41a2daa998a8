import Gamelan.Proofs.Arrangement.Lookups
import Gamelan.Proofs.Performance.Inside
import Gamelan.Proofs.Performance.Positions

namespace Gamelan

open Midi Performance

namespace Checked

def played (p : Performance) (b : BeatId) : Option Played := do
  let beat ← p.score.beats[b]?
  let iteration ← currentIteration p
  return {
    beat := b
    fullId := beat.fullId
    pass := p.currentPass
    iteration
    tempo := p.tempo.span
    dynamics := p.dynamics.span }

/-- Performs what is left. There are at most as many beats as the fuel says, or else nothing comes out. -/
def finish : Nat → Array Played → Performance → Option (Except Error (Array Played) × Performance)
  | 0, _, _ => none
  | fuel + 1, acc, p => do
    match ← next p with
    | (.error e, p) => return (.error e, p)
    | (.ok none, p) => return (.ok acc, p)
    | (.ok (some b), p) =>
      let beat ← played p b
      finish fuel (acc.push beat) p

def walk (p : Performance) (position? : Option Position) : Option (Except Error (Array Played) × Performance) :=
  finish (p.maxSteps + 1) #[] (p.reset position?)

def tempoBeats (p : Performance) (played : Array Played) : Option (List (Float × Span)) :=
  played.toList.mapM fun b => do
    let beat ← p.score.beats[b.beat]?
    return (beat.duration, b.tempo)

def measures (p : Performance) (position : Position) (played : Array Played) : Option (List PlayedMeasure) :=
  played.toList.mapM fun b => do
    let beat ← p.score.beats[b.beat]?
    return ⟨beat.duration, b.dynamics, beat.notes position b.pass⟩

def conductor (p : Performance) (settings : Settings) : Option (Except Error Track × Performance) := do
  match ← walk p none with
  | (.error e, p) => return (.error e, p)
  | (.ok played, p) =>
    let beats ← tempoBeats p played
    return (.ok (conductorTrack (toTick settings.ppq) (p.score.title?.getD "") beats), p)

def part (p : Performance) (settings : Settings) (position : Position) (instrument : Instrument) :
    Option (Except Error Track × Performance) := do
  match ← walk p (some position) with
  | (.error e, p) => return (.error e, p)
  | (.ok played, p) =>
    let measures ← measures p position played
    return (partTrack (toTick settings.ppq) position instrument measures, p)

def parts (settings : Settings) :
    List (Position × Instrument) → Performance → Option (Except Error (List Track) × Performance)
  | [], p => some (.ok [], p)
  | (position, instrument) :: rest, p => do
    match ← part p settings position instrument with
    | (.error e, p) => return (.error e, p)
    | (.ok track, p) =>
      let (tracks, p) ← parts settings rest p
      return (tracks.map (track :: ·), p)

def render (p : Performance) (settings : Settings) : Option (Except Error Bytes × Performance) :=
  match trackPlan p.score settings with
  | .error fault => some (.error (.midi fault), p)
  | .ok plan => do
    match ← conductor p settings with
    | (.error e, p) => return (.error e, p)
    | (.ok first, p) =>
      match ← parts settings plan p with
      | (.error e, p) => return (.error e, p)
      | (.ok rest, p) => return ((fileBytes settings.ppq (first :: rest)).mapError .midi, p)

def run (p : Performance) : Call → Option Performance
  | .reset position? => some (p.reset position?)
  | .next => (next p).map (·.2)
  | .walk position? => (walk p position?).map (·.2)
  | .render settings => (render p settings).map (·.2)

/-- The performance after some calls in turn, if all their lookups find something. -/
def after (p : Performance) (calls : List Call) : Option Performance := calls.foldlM run p

end Checked

theorem mapM_eq_some_of_forall {α β : Type} {f : α → Option β} {g : α → β} {xs : List α}
    (h : ∀ x ∈ xs, f x = some (g x)) : xs.mapM f = some (xs.map g) := by
  induction xs with
  | nil => rfl
  | cons x xs ih =>
    obtain ⟨hx, hxs⟩ := List.forall_mem_cons.1 h
    rw [List.mapM_cons, hx, ih hxs]
    rfl

namespace Performance

variable {p q : Performance} {b : BeatId}

theorem checked_tempoBeats {played : Array Played} (h : ∀ b ∈ played.toList, b.beat < p.score.beats.size) :
    Checked.tempoBeats p played = some (p.tempoBeats played) :=
  mapM_eq_some_of_forall fun b hb => by
    rw [duration, Array.getElem?_eq_getElem (h b hb)]
    rfl

theorem checked_measures {position : Position} {played : Array Played}
    (h : ∀ b ∈ played.toList, b.beat < p.score.beats.size) :
    Checked.measures p position played = some (p.measures position played) :=
  mapM_eq_some_of_forall fun b hb => by
    rw [duration, Array.getElem?_eq_getElem (h b hb)]
    rfl

namespace IsInside

variable (hp : p.IsInside)

include hp

theorem checked_next : Checked.next p = some p.next :=
  Performance.checked_next hp.placed hp.cursor fun _ => hp.destination?_lt

theorem checked_played (hb : b < p.score.beats.size) : Checked.played p b = some (p.played b) := by
  obtain ⟨beat, g, h⟩ := hp.placed.exists_standsAt hb
  rw [Checked.played, h.found, checked_currentIteration hp.placed hp.cursor, played, h.fullId_eq]
  rfl

/-- The limit leaves enough fuel for a walk, and all its lookups find something. -/
theorem checked_finish {fuel : Nat} (hfuel : p.maxSteps - p.steps < fuel) (acc : Array Played) :
    Checked.finish fuel acc p = some (finish acc p) := by
  induction fuel generalizing acc p with
  | zero => cases hfuel
  | succ fuel ih =>
    have hinside := hp.next
    rw [Checked.finish, hp.checked_next]
    cases hnext : p.next with
    | mk out q =>
      rw [hnext] at hinside
      rcases out with e | _ | b
      · rw [finish_of_error hnext]
        rfl
      · rw [finish_of_end hnext]
        rfl
      · -- The beat that is performed is the one that the flow has led to, which is in the score.
        obtain ⟨hdestination, hlimit, rfl⟩ := hp.complete.next_eq_beat_iff.1 hnext
        have hb : b < (p.visit b).score.beats.size :=
          hp.complete.visit_score b ▸ hp.destination?_lt hdestination
        have hless : (p.visit b).maxSteps - (p.visit b).steps < fuel := by
          rw [hp.complete.visit_maxSteps, hp.complete.visit_steps]
          omega
        simp only [Option.bind_eq_bind, Option.bind_some, hinside.checked_played hb, finish_of_beat hnext]
        exact ih hinside hless (acc.push ((p.visit b).played b))

theorem checked_walk (position? : Option Position) : Checked.walk p position? = some (p.walk position?) :=
  (hp.reset position?).checked_finish (Nat.lt_succ_of_le (Nat.sub_le _ _)) #[]

theorem lt_of_follow {bs : List BeatId} (hq : p.follow bs = some q) : ∀ b ∈ bs, b < p.score.beats.size := by
  induction bs generalizing p with
  | nil => simp
  | cons b bs ih =>
    obtain ⟨hdestination, -, hrest⟩ := hp.complete.follow_cons_iff.1 hq
    have hb := hp.destination?_lt hdestination
    refine List.forall_mem_cons.2 ⟨hb, fun c hc => ?_⟩
    exact hp.complete.visit_score b ▸ ih (hp.visit hb) hrest c hc

/-- A walk performs beats of the score. -/
theorem lt_of_walk {position? : Option Position} {played : Array Played} (h : p.walk position? = (.ok played, q)) :
    ∀ b ∈ played.toList, b.beat < q.score.beats.size := by
  have hscore : q.score = p.score := by simpa only [h] using p.walk_snd_score position?
  obtain ⟨r, hr, -⟩ := walk_beats_iff.1 ⟨played, congrArg (·.1) h, rfl⟩
  intro b hb
  rw [hscore]
  exact (hp.reset position?).lt_of_follow hr b.beat (List.mem_map_of_mem hb)

theorem checked_conductor (settings : Settings) : Checked.conductor p settings = some (p.conductor settings) := by
  rw [Checked.conductor, conductor, hp.checked_walk]
  cases hwalk : p.walk none with
  | mk out q =>
    cases out with
    | error e => rfl
    | ok played =>
      simp only [Option.bind_eq_bind, Option.bind_some, checked_tempoBeats (hp.lt_of_walk hwalk)]
      rfl

theorem checked_part (settings : Settings) (position : Position) (instrument : Instrument) :
    Checked.part p settings position instrument = some (p.part settings position instrument) := by
  rw [Checked.part, part, hp.checked_walk]
  cases hwalk : p.walk (some position) with
  | mk out q =>
    cases out with
    | error e => rfl
    | ok played =>
      simp only [Option.bind_eq_bind, Option.bind_some, checked_measures (hp.lt_of_walk hwalk)]
      rfl

theorem walk (position? : Option Position) : (p.walk position?).2.IsInside :=
  walk_invariant (fun _ position? hp => hp.reset position?) (fun _ hp => hp.next) position? hp

theorem checked_parts (settings : Settings) (plan : List (Position × Instrument)) :
    Checked.parts settings plan p = some (parts settings plan p) := by
  induction plan generalizing p with
  | nil => rfl
  | cons entry plan ih =>
    obtain ⟨position, instrument⟩ := entry
    have hinside : (p.part settings position instrument).2.IsInside := hp.walk (some position)
    rw [Checked.parts, parts, hp.checked_part]
    generalize p.part settings position instrument = r at hinside ⊢
    obtain ⟨out, q⟩ := r
    cases out with
    | error e => rfl
    | ok track =>
      simp only [Option.bind_eq_bind, Option.bind_some, ih hinside]
      rfl

theorem checked_render (settings : Settings) : Checked.render p settings = some (p.render settings) := by
  have hinside : (p.conductor settings).2.IsInside := hp.walk none
  rw [Checked.render, render]
  cases trackPlan p.score settings with
  | error fault => rfl
  | ok plan =>
    simp only
    rw [hp.checked_conductor]
    generalize p.conductor settings = r at hinside ⊢
    obtain ⟨out, q⟩ := r
    cases out with
    | error e => rfl
    | ok first =>
      simp only [Option.bind_eq_bind, Option.bind_some, hinside.checked_parts]
      generalize parts settings plan q = r
      obtain ⟨out, q'⟩ := r
      cases out <;> rfl

theorem checked_run (call : Call) : Checked.run p call = some (call.run p) := by
  cases call with
  | reset position? => rfl
  | next => rw [Checked.run, hp.checked_next, Option.map_some, Call.run]
  | walk position? => rw [Checked.run, hp.checked_walk, Option.map_some, Call.run]
  | render settings => rw [Checked.run, hp.checked_render, Option.map_some, Call.run]

/-- No call looks up anything that is not there, whatever has been asked of the performance before. -/
theorem checked_after (calls : List Call) : Checked.after p calls = some (p.after calls) := by
  induction calls generalizing p with
  | nil => rfl
  | cons call calls ih =>
    rw [Checked.after, List.foldlM_cons, hp.checked_run]
    exact ih (hp.after [call])

end IsInside

/-- References stay inside the score. Each beat of a score stands in a gongan of the score, behind as many beats as its
number says. To set a performance up, every lookup of a beat or of a gongan finds something; so it does in all calls on
the performance, and during and after them the references that it holds are to beats and gongans of the score. -/
theorem references_inside {m : Manuscript} {s : Score} (hm : m.toScore = .ok s) (settings : Settings) :
    (∀ b < s.beats.size, ∃ beat g, s.StandsAt b beat g) ∧
    Checked.arrange s settings = some (s.arrange settings) ∧
    ∀ a, s.arrange settings = .ok a → ∀ calls,
      Checked.after a.performance calls = some (a.performance.after calls) ∧
      ∀ p, a.performance.During calls p → p.score = s ∧ p.IsInside ∧ Checked.next p = some p.next := by
  have hs := Manuscript.toScore_isPlaced hm
  refine ⟨fun b hb => hs.exists_standsAt hb, Score.checked_arrange hs settings, fun a ha calls => ?_⟩
  have hinside := Score.arrange_isInside hs ha
  refine ⟨hinside.checked_after calls, fun p hp => ?_⟩
  have hduring := hinside.during hp
  exact ⟨(hp.score_eq hinside.complete).trans (Score.arrange_score ha).1, hduring, hduring.checked_next⟩

/-- A goto and a sequence go back into the middle of a gongan that has a loop. -/
theorem references_inside_of_return :
    let m : Manuscript := { gongans := [
      { directives := [.label "A" 2, .loop 2, .tempo 90 { beatCount := 2 }], beats := [{}, {}] },
      { directives := [.label "B" 1, .goto "A" none [1] none, .sequence ["B", "A"]], beats := [{}, {}] }] }
    let calls : List Call := [.walk (some "reyong"), .next, .render {}]
    ∃ s a p, m.toScore = .ok s ∧ s.arrange {} = .ok a ∧ Checked.arrange s {} = some (.ok a) ∧
      Checked.after a.performance calls = some (a.performance.after calls) ∧
      ((a.performance.after calls).reset none).follow [0, 1, 0, 1, 2, 3] = some p ∧
      p.destination? = some 1 ∧ p.IsInside ∧ Checked.next p = some p.next := by
  intro m calls
  have harrangement : ∃ s a, m.toScore = .ok s ∧ s.arrange {} = .ok a ∧
      ((a.performance.reset none).follow [0, 1, 0, 1, 2, 3]).any (·.destination? = some 1) :=
    Manuscript.exists_arrangement (by decide +kernel)
  obtain ⟨s, a, hs, ha, hrun⟩ := harrangement
  obtain ⟨p, hp, hdestination⟩ := (Option.any_eq_true _ _).1 hrun
  rw [← (Score.arrange_isComplete ha).reset_after calls none] at hp
  obtain ⟨-, harrange, hcalls⟩ := references_inside hs {}
  obtain ⟨hafter, hduring⟩ := hcalls a ha calls
  obtain ⟨-, hinside, hnext⟩ := hduring p (.inr ⟨none, _, hp⟩)
  exact ⟨s, a, p, hs, ha, ha ▸ harrange, hafter, hp, of_decide_eq_true hdestination, hinside, hnext⟩

end Performance

end Gamelan
