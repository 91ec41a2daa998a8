import Gamelan.Proofs.Performance.Restart

namespace Gamelan

/-- A gongan without its directives. -/
def Gongan.bare (g : Gongan) : Gongan := { g with directives := [] }

/-- A score without its directives. -/
def Score.bare (s : Score) : Score := { s with gongans := s.gongans.map Gongan.bare }

theorem Score.gongan?_bare (s : Score) (n : Nat) : s.bare.gongan? n = (s.gongan? n).map Gongan.bare := by
  cases n with
  | zero => rfl
  | succ n => simp [Score.gongan?, Score.bare]

theorem Score.earlierBeats_bare (s : Score) (b : BeatId) : s.bare.earlierBeats b = s.earlierBeats b := by
  have hbeats : s.bare.beats = s.beats := rfl
  rw [Score.earlierBeats, Score.earlierBeats, hbeats]
  cases s.beats[b]? with
  | none => rfl
  | some beat =>
    simp only [Score.gongan?_bare]
    cases s.gongan? beat.gongan <;> rfl

theorem Score.lastBeatOf_bare (s : Score) (b : BeatId) : s.bare.lastBeatOf b = s.lastBeatOf b := by
  change (s.bare.gongan? (s.gonganOf b)).elim b Gongan.lastBeat = _
  rw [Score.lastBeatOf, Score.gongan?_bare]
  cases s.gongan? (s.gonganOf b) <;> rfl

/-- What a beat of a performance is for the flow. -/
def Played.flow (b : Played) : BeatId × String × UInt32 × UInt32 := (b.beat, b.fullId, b.pass, b.iteration)

namespace Performance

/-- A performance without all that does not steer its flow: directives, tempo, dynamics and position. -/
def bare (p : Performance) : Performance :=
  { p with
    score := p.score.bare
    tempo := { ramps := #[] }
    dynamics := { ramps := #[] }
    position? := none }

theorem bare_apply (p : Performance) (c : Count) : (c.apply p).bare = c.apply p.bare := by
  cases c with
  | iteration g =>
    change ((p.loops.get? g).elim p fun l => p.setLoop g l.increment).bare =
      (p.loops.get? g).elim p.bare fun l => p.bare.setLoop g l.increment
    cases p.loops.get? g <;> rfl
  | pass b => rfl
  | adopted b n => rfl

theorem bare_foldl_apply (p : Performance) (cs : List Count) :
    (cs.foldl Count.apply p).bare = cs.foldl Count.apply p.bare := by
  induction cs generalizing p with
  | nil => rfl
  | cons c cs ih => rw [List.foldl_cons, ih, bare_apply, List.foldl_cons]

theorem counts_bare (p : Performance) (from? : Option BeatId) (b : BeatId) :
    p.bare.counts from? b = p.counts from? b := by
  have hiteration : p.bare.countIteration b = (p.countIteration b).bare := by
    rw [countIteration_eq_foldl, countIteration_eq_foldl, bare_foldl_apply]
    rfl
  have hpass : (p.countIteration b).bare.countPass b = ((p.countIteration b).countPass b).bare := by
    rw [countPass_eq_foldl, countPass_eq_foldl, bare_foldl_apply]
    rfl
  have hearlier : p.bare.score.earlierBeats b = p.score.earlierBeats b := p.score.earlierBeats_bare b
  rw [counts, hiteration, hpass, hearlier]
  rfl

theorem destination?_bare (p : Performance) : p.bare.destination? = p.destination? := by
  have hcursor : p.bare.cursor = p.cursor := rfl
  rw [destination?, destination?, hcursor]
  cases p.cursor with
  | notStarted => rfl
  | «at» b =>
    simp only [target?_fst]
    rfl
  | finished => rfl

theorem reset_bare_congr {p q : Performance} (h : p.bare = q.bare) (position? position'? : Option Position) :
    (p.reset position?).bare = (q.reset position'?).bare := by
  have hbare (r : Performance) (position? : Option Position) : (r.reset position?).bare =
      { r.bare with
        jumps := r.bare.jumps.map (·.map Jump.reset)
        loops := r.bare.loops.mapValues Loop.reset
        cursor := .notStarted
        steps := 0 } := rfl
  rw [hbare, hbare, h]

theorem played_flow_congr {p q : Performance} (h : p.bare = q.bare) (b : BeatId) :
    (p.played b).flow = (q.played b).flow := by
  have hbare (r : Performance) : (r.played b).flow = (r.bare.played b).flow := rfl
  rw [hbare, h, ← hbare]

theorem current_congr {p q : Performance} (h : p.bare = q.bare) :
    p.currentPass = q.currentPass ∧ p.currentIteration = q.currentIteration := by
  have hbare (r : Performance) : r.currentPass = r.bare.currentPass ∧ r.currentIteration = r.bare.currentIteration :=
    ⟨rfl, rfl⟩
  rw [(hbare p).1, (hbare p).2, h]
  exact ⟨rfl, rfl⟩

theorem visit_bare_congr {p q : Performance} (hp : p.IsComplete) (hq : q.IsComplete) (h : p.bare = q.bare)
    (b : BeatId) : (p.visit b).bare = (q.visit b).bare := by
  have hbare {r : Performance} (hr : r.IsComplete) : (r.visit b).bare =
      { (r.bare.counts r.bare.currentBeat? b).foldl Count.apply r.bare with
        cursor := .at b
        steps := r.bare.steps + 1 } := by
    rw [hr.visit_eq, ← bare_foldl_apply, counts_bare, show r.bare.currentBeat? = r.currentBeat? from rfl]
    generalize r.counts r.currentBeat? b = cs
    rw [foldl_apply_eq]
    rfl
  rw [hbare hp, hbare hq, h]

/-- Performances that differ only in what does not steer the flow take the same step. -/
theorem next_bare_congr {p q : Performance} (hp : p.IsComplete) (hq : q.IsComplete) (h : p.bare = q.bare) :
    p.next.1 = q.next.1 ∧ p.next.2.bare = q.next.2.bare := by
  have hcursor : p.bare.cursor = q.bare.cursor := by rw [h]
  have hsteps : p.bare.steps = q.bare.steps := by rw [h]
  have hlimit : p.bare.maxSteps = q.bare.maxSteps := by rw [h]
  change p.cursor = q.cursor at hcursor
  change p.steps = q.steps at hsteps
  change p.maxSteps = q.maxSteps at hlimit
  have hdestination : q.destination? = p.destination? := by
    rw [← destination?_bare q, ← h, destination?_bare]
  rw [hp.next_eq, hq.next_eq, hdestination]
  by_cases hfinished : p.cursor = .finished
  · rw [if_pos hfinished, if_pos (hcursor.symm.trans hfinished)]
    exact ⟨rfl, h⟩
  · rw [if_neg hfinished, if_neg fun hq => hfinished (hcursor.trans hq)]
    cases p.destination? with
    | none => exact ⟨rfl, congrArg (fun r : Performance => { r with cursor := .finished }) h⟩
    | some b =>
      by_cases hreached : p.maxSteps ≤ p.steps
      · have hreached' : q.maxSteps ≤ q.steps := by omega
        simp only [if_pos hreached, if_pos hreached']
        exact ⟨congrArg (fun n => Except.error (Error.stepLimit n)) hlimit,
          congrArg (fun r : Performance => { r with steps := r.steps + 1 }) h⟩
      · have hroom' : ¬ q.maxSteps ≤ q.steps := by omega
        simp only [if_neg hreached, if_neg hroom']
        exact ⟨trivial, visit_bare_congr hp hq h b⟩

/-- Performances that differ only in what does not steer the flow visit the same beat or stay where they are. -/
theorem next_cases_congr {p q : Performance} (hp : p.IsComplete) (hq : q.IsComplete) (h : p.bare = q.bare) :
    p.next.1 = q.next.1 ∧ ((∃ b, p.next.2 = p.visit b ∧ q.next.2 = q.visit b) ∨
      ∃ cursor steps, p.next.2 = { p with cursor, steps } ∧ q.next.2 = { q with cursor, steps }) := by
  obtain ⟨hout, hbare⟩ := next_bare_congr hp hq h
  refine ⟨hout, ?_⟩
  rcases hp.next_cases with ⟨b, hb⟩ | ⟨hnone, cursor, steps, hstay⟩
  · rcases hq.next_cases with ⟨c, hc⟩ | ⟨hnone', -⟩
    · rw [hb, hc] at hout
      cases hout
      exact .inl ⟨b, by rw [hb], by rw [hc]⟩
    · rw [hb] at hout
      exact absurd hout.symm (hnone' b)
  · rcases hq.next_cases with ⟨c, hc⟩ | ⟨-, cursor', steps', hstay'⟩
    · rw [hc] at hout
      exact absurd hout (hnone c)
    · rw [hstay, hstay'] at hbare
      obtain rfl : cursor = cursor' := congrArg (·.cursor) hbare
      obtain rfl : steps = steps' := congrArg (·.steps) hbare
      exact .inr ⟨cursor, steps, hstay, hstay'⟩

end Performance

end Gamelan
