import Gamelan.Proofs.Arrangement.Flow
import Gamelan.Proofs.Performance.Values
import Gamelan.Proofs.Performance.Walk
import Gamelan.Proofs.Ramp.Embedding

namespace Gamelan

/-- Whether a directive is for a position: all are but changes of the dynamics of other positions. -/
def Directive.isHeardBy (position? : Option Position) : Directive → Bool
  | .dynamics _ _ positions => positions.isEmpty || position?.any (positions.contains ·)
  | _ => true

/-- A score without the changes of dynamics that a position does not hear. -/
def Score.heardBy (s : Score) (position? : Option Position) : Score := s.only (·.isHeardBy position?)

namespace Performance

/-- Two performances that sound the same to a position, where the first one may have changes of dynamics that the
position does not hear. -/
structure SoundsAs (position? : Option Position) (p q : Performance) : Prop where
  bare : p.bare = q.bare
  tempo : p.tempo = q.tempo
  dynamics : ∃ place, q.dynamics.Embeds position? place p.dynamics

/-- Two performances for a position that sound the same to it. -/
structure PlaysAs (position? : Option Position) (p q : Performance) : Prop extends SoundsAs position? p q where
  left : p.IsComplete
  right : q.IsComplete
  position : p.position? = position? ∧ q.position? = position?

variable {position? : Option Position} {p q : Performance}

namespace SoundsAs

theorem played (h : SoundsAs position? p q) (b : BeatId) : p.played b = q.played b := by
  have hfields (r : Performance) :
      r.played b =
        ⟨b, (r.played b).fullId, (r.played b).pass, (r.played b).iteration, r.tempo.span, r.dynamics.span⟩ := rfl
  obtain ⟨place, hplace⟩ := h.dynamics
  obtain ⟨-, hid, hpass, hiteration⟩ : _ ∧ _ ∧ _ ∧ _ := by
    simpa only [Played.flow, Prod.mk.injEq] using played_flow_congr h.bare b
  rw [hfields p, hfields q, hid, hpass, hiteration, h.tempo, hplace.span_eq]

/-- From the beginning on, the two perform for the position. -/
theorem playsAs_reset (h : SoundsAs position? p q) (hp : p.IsComplete) (hq : q.IsComplete) :
    PlaysAs position? (p.reset position?) (q.reset position?) where
  bare := reset_bare_congr h.bare position? position?
  tempo := congrArg Schedule.reset h.tempo
  dynamics := h.dynamics.imp fun _ hplace => hplace.reset
  left := hp.reset position?
  right := hq.reset position?
  position := ⟨rfl, rfl⟩

end SoundsAs

namespace PlaysAs

theorem visit (h : PlaysAs position? p q) (b : BeatId) : PlaysAs position? (p.visit b) (q.visit b) := by
  have hbare := visit_bare_congr h.left h.right h.bare b
  obtain ⟨hpass, hiteration⟩ := current_congr hbare
  obtain ⟨hleft, hright⟩ := h.position
  refine ⟨⟨hbare, ?_, ?_⟩, h.left.visit b, h.right.visit b, ?_, ?_⟩
  · rw [h.left.visit_tempo, h.right.visit_tempo, h.tempo, hleft, hright, hpass, hiteration]
  · obtain ⟨place, hplace⟩ := h.dynamics
    have henter := hplace.enter b (q.visit b).currentPass (q.visit b).currentIteration
    refine ⟨place, ?_⟩
    have hp := h.left.schedule_visit b .dynamics
    have hq := h.right.schedule_visit b .dynamics
    rw [hleft, hpass, hiteration] at hp
    rw [hright] at hq
    change (p.visit b).dynamics = _ at hp
    change (q.visit b).dynamics = _ at hq
    rw [hp, hq]
    exact henter
  · rw [h.left.position?_visit, hleft]
  · rw [h.right.position?_visit, hright]

/-- A step keeps two performances together that sound the same to a position. -/
theorem next (h : PlaysAs position? p q) : p.next.1 = q.next.1 ∧ PlaysAs position? p.next.2 q.next.2 := by
  obtain ⟨hout, ⟨b, hp, hq⟩ | ⟨cursor, steps, hp, hq⟩⟩ := next_cases_congr h.left h.right h.bare
  · rw [hp, hq]
    exact ⟨hout, h.visit b⟩
  · rw [hp, hq]
    have hbare := congrArg (fun r : Performance => { r with cursor, steps }) h.bare
    exact ⟨hout, ⟨hbare, h.tempo, h.dynamics⟩, h.left, h.right, h.position⟩

end PlaysAs

/-- What a position hears of a walk is the same. -/
theorem SoundsAs.walk (h : SoundsAs position? p q) (hp : p.IsComplete) (hq : q.IsComplete) :
    (p.walk position?).1 = (q.walk position?).1 := by
  have hid (out : Except Error (Array Played)) : out.map (·.map id) = out := by
    cases out <;> simp [Except.map]
  have hwalk := walk_map_congr (R := PlaysAs position?) (f := id) (fun p q h => h.next) (fun p q b h => h.played b)
    (h.playsAs_reset hp hq)
  rwa [hid, hid] at hwalk

theorem isCongruence_soundsAs (position? : Option Position) : Arrangement.IsCongruence (SoundsAs position?) where
  hasLoop h := Arrangement.isCongruence_bare.hasLoop h.bare
  links h := Arrangement.isCongruence_bare.links h.bare
  modifyJump h b f := ⟨Arrangement.isCongruence_bare.modifyJump h.bare b f, h.tempo, h.dynamics⟩
  setLoop h n l := ⟨Arrangement.isCongruence_bare.setLoop h.bare n l, h.tempo, h.dynamics⟩
  addRamp h quantity b r := by
    have hbare := Arrangement.isCongruence_bare.addRamp h.bare quantity b r
    obtain ⟨place, hplace⟩ := h.dynamics
    cases quantity with
    | tempo => exact ⟨hbare, congrArg (·.add b r) h.tempo, place, hplace⟩
    | dynamics => exact ⟨hbare, h.tempo, _, hplace.add b r⟩

end Performance

namespace Arrangement

/-- A change of dynamics that a position does not hear is of no account to it, whether it is accepted or not. -/
theorem soundsAs_directStep {position? : Option Position} {settings : Settings} {labels : Labels}
    {p p' q : Performance} {g : Gongan} {d : Directive} (hd : d.isHeardBy position? = false)
    (h : p.SoundsAs position? q) (hp : directStep settings labels p g d = .ok p') : p'.SoundsAs position? q := by
  cases d with
  | dynamics mark extent positions =>
    rw [directStep] at hp
    cases hmark : settings.velocityFor? mark with
    | none => simp [hmark] at hp
    | some velocity =>
      simp only [hmark] at hp
      obtain ⟨b, r, -, -, -, rfl⟩ := addRamp_eq_ok_iff.1 hp
      obtain ⟨place, hplace⟩ := h.dynamics
      exact ⟨h.bare, h.tempo, place, hplace.addUnheard b hd⟩
  | _ => cases hd

end Arrangement

namespace Score

open Arrangement

theorem bare_heardBy (s : Score) (position? : Option Position) : (s.heardBy position?).bare = s.bare :=
  s.bare_only _

/-- The performances of a score and of what a position hears of it sound the same to the position, and none or both of
them overflow. -/
theorem soundsAs_arranged (s : Score) (settings : Settings) (position? : Option Position) {p q : Performance}
    (h : p.SoundsAs position? q) :
    (s.arranged settings p).SoundsAs position? ((s.heardBy position?).arranged settings q) ∧
      s.overflows settings p = (s.heardBy position?).overflows settings q := by
  refine arranged_only (Performance.isCongruence_soundsAs position?) s settings (fun d hd => ?_)
    (fun p p' q labels g d hd h hp => soundsAs_directStep hd h hp) h
  cases d with
  | dynamics mark extent positions => rfl
  | _ => cases hd

end Score

namespace Performance

/-- The dynamics of one position do not leak into those of another one. Without the changes of dynamics that it does
not hear, a walk for a position is the same in every beat and every field, or fails for the same reason; and so is a
walk for no position without the changes that are for certain positions only. -/
theorem walk_heardBy (s : Score) (settings : Settings) (position? : Option Position) (calls calls' : List Call) :
    ((s.heardBy position?).arrange settings).map (fun b => ((b.performance.after calls').walk position?).1) =
      (s.arrange settings).map fun a => ((a.performance.after calls).walk position?).1 := by
  cases htempo : Schedule.ofDefault .tempo settings.defaultTempo with
  | error fault =>
    simp [Score.arrange, ofScore, htempo, Except.mapError, bind, Except.bind, Except.map]
  | ok tempo =>
    cases hdynamics : Schedule.ofDefault .dynamics settings.defaultVelocity with
    | error fault =>
      simp [Score.arrange, ofScore, htempo, hdynamics, Except.mapError, bind, Except.bind, Except.map]
    | ok dynamics =>
      have hplain : s.plain settings = .ok _ := Score.plain_eq_ok_iff.2 ⟨tempo, dynamics, htempo, hdynamics, rfl⟩
      have hplain' : (s.heardBy position?).plain settings = .ok _ :=
        Score.plain_eq_ok_iff.2 ⟨tempo, dynamics, htempo, hdynamics, rfl⟩
      obtain ⟨hsounds, hboth⟩ := s.soundsAs_arranged settings position?
        ((isCongruence_soundsAs position?).createJumps (p := {
          score := s, tempo, dynamics, maxSteps := settings.maxSteps
          jumps := Array.replicate s.beats.size none }) (q := {
          score := s.heardBy position?, tempo, dynamics, maxSteps := settings.maxSteps
          jumps := Array.replicate s.beats.size none })
          ⟨by simp only [bare, s.bare_heardBy position?], rfl, id, .ofDefault hdynamics⟩ (List.range s.beats.size))
      cases hoverflows : s.overflows settings _ with
      | true =>
        rw [(Score.arrange_eq_overflow_iff hplain).2 hoverflows,
          (Score.arrange_eq_overflow_iff hplain').2 (hboth.symm.trans hoverflows)]
        rfl
      | false =>
        obtain ⟨a, ha, hperformance⟩ := Score.exists_arrange hplain hoverflows
        obtain ⟨b, hb, hperformance'⟩ := Score.exists_arrange hplain' (hboth.symm.trans hoverflows)
        have hsounds : a.performance.SoundsAs position? b.performance := by
          rw [hperformance, hperformance']
          exact hsounds
        have hcomplete := Score.arrange_isComplete ha
        have hcomplete' := Score.arrange_isComplete hb
        rw [ha, hb, Except.map, Except.map, walk_congr (hcomplete.reset_after calls position?),
          walk_congr (hcomplete'.reset_after calls' position?), hsounds.walk hcomplete hcomplete']

end Performance

end Gamelan
