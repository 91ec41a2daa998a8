import Gamelan.Proofs.Performance.Flow
import Gamelan.Proofs.Performance.Walk

namespace Gamelan

namespace Schedule

/-- No ramp is for certain positions only. -/
def IsForAll (s : Schedule) : Prop := ∀ r ∈ s.ramps.map Ramp.clear, r.positions = []

variable {s : Schedule}

theorem IsForAll.positions_eq (hs : s.IsForAll) {i : Nat} {r : Ramp} (hr : s.ramps[i]? = some r) :
    r.positions = [] := by
  have hmem : r.clear ∈ s.ramps.map Ramp.clear := Array.mem_map_of_mem (Array.mem_of_getElem? hr)
  exact hs r.clear hmem

theorem IsForAll.enter (hs : s.IsForAll) (b : BeatId) (position? : Option Position) (pass iteration : UInt32) :
    (s.enter b position? pass iteration).IsForAll := by
  rw [IsForAll, map_clear_enter]
  exact hs

theorem IsForAll.reset (hs : s.IsForAll) : s.reset.IsForAll := by
  rw [IsForAll, map_clear_reset]
  exact hs

theorem ofDefault_isForAll {quantity : Quantity} {value : Int32} (h : ofDefault quantity value = .ok s) :
    s.IsForAll := by
  rw [ofDefault, Ramp.make] at h
  by_cases hvalue : quantity.accepts value
  · simp [hvalue, bind, Except.bind, pure, Except.pure] at h
    subst h
    simp [IsForAll, Ramp.clear, Ramp.start]
  · simp [hvalue, bind, Except.bind] at h

theorem IsForAll.add (hs : s.IsForAll) (b : BeatId) {r : Ramp} (hr : r.positions = []) : (s.add b r).IsForAll := by
  intro q hq
  simp only [Schedule.add, Array.map_push, Array.mem_push] at hq
  rcases hq with hq | rfl
  · exact hs q hq
  · exact hr

/-- Ramps that are for all positions take no notice of whose part is performed. -/
theorem IsForAll.enter_congr (hs : s.IsForAll) (b : BeatId) (position? position'? : Option Position)
    (pass iteration : UInt32) : s.enter b position? pass iteration = s.enter b position'? pass iteration := by
  have hstarting : s.starting? b position? pass iteration = s.starting? b position'? pass iteration := by
    rw [starting?, starting?]
    congr 1
    funext i
    cases hr : s.ramps[i]? with
    | none => rfl
    | some r => simp [Ramp.isFor, hs.positions_eq hr]
  rw [Schedule.enter, Schedule.enter, hstarting]

end Schedule

/-- What a beat of a performance is for the flow and the tempo. -/
def Played.timing (b : Played) : (BeatId × String × UInt32 × UInt32) × Span := (b.flow, b.tempo)

namespace Performance

/-- Two performances that agree on flow and tempo, where no ramp of the tempo looks at positions. -/
structure SameTiming (p q : Performance) : Prop where
  left : p.IsComplete
  right : q.IsComplete
  bare : p.bare = q.bare
  tempo : p.tempo = q.tempo
  forAll : p.tempo.IsForAll

namespace SameTiming

variable {p q : Performance}

theorem maxSteps (h : SameTiming p q) : p.maxSteps = q.maxSteps := by
  have hlimit : p.bare.maxSteps = q.bare.maxSteps := by rw [h.bare]
  exact hlimit

theorem played (h : SameTiming p q) (b : BeatId) : (p.played b).timing = (q.played b).timing := by
  have htempo : (p.played b).tempo = (q.played b).tempo := congrArg Schedule.span h.tempo
  rw [Played.timing, Played.timing, played_flow_congr h.bare, htempo]

theorem reset (h : SameTiming p q) (position? position'? : Option Position) :
    SameTiming (p.reset position?) (q.reset position'?) where
  left := h.left.reset position?
  right := h.right.reset position'?
  bare := reset_bare_congr h.bare position? position'?
  tempo := congrArg Schedule.reset h.tempo
  forAll := h.forAll.reset

theorem visit (h : SameTiming p q) (b : BeatId) : SameTiming (p.visit b) (q.visit b) where
  left := h.left.visit b
  right := h.right.visit b
  bare := visit_bare_congr h.left h.right h.bare b
  tempo := by
    obtain ⟨hpass, hiteration⟩ := current_congr (visit_bare_congr h.left h.right h.bare b)
    rw [h.left.visit_tempo, h.right.visit_tempo, ← h.tempo, ← hpass, ← hiteration]
    exact h.forAll.enter_congr b _ _ _ _
  forAll := by
    rw [h.left.visit_tempo]
    exact h.forAll.enter b _ _ _

/-- A step keeps two performances together in flow and tempo, for whatever positions they are. -/
theorem next (h : SameTiming p q) : p.next.1 = q.next.1 ∧ SameTiming p.next.2 q.next.2 := by
  obtain ⟨hout, ⟨b, hp, hq⟩ | ⟨cursor, steps, hp, hq⟩⟩ := next_cases_congr h.left h.right h.bare
  · rw [hp, hq]
    exact ⟨hout, h.visit b⟩
  · rw [hp, hq]
    exact ⟨hout, h.left, h.right, congrArg (fun r : Performance => { r with cursor, steps }) h.bare, h.tempo, h.forAll⟩

end SameTiming

end Performance

end Gamelan
