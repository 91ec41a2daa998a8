import Gamelan.Performance
import Mathlib.Data.List.Basic

namespace Gamelan.Performance

/-- Every beat of the score has a jump of its own, so none is set up on the way. -/
def IsComplete (p : Performance) : Prop :=
  p.jumps.size = p.score.beats.size ∧ ∀ b, b < p.jumps.size → ∃ j, p.jumps[b]? = some (some j)

@[simp] theorem size_setJump (p : Performance) (b : BeatId) (j : Jump) :
    (p.setJump b j).jumps.size = p.jumps.size := Array.size_setIfInBounds

@[simp] theorem size_modifyJump (p : Performance) (b : BeatId) (f : Jump → Jump) :
    (p.modifyJump b f).jumps.size = p.jumps.size := p.size_setJump b _

@[simp] theorem size_createJump (p : Performance) (b : BeatId) :
    (p.createJump b).jumps.size = p.jumps.size := p.size_setJump b _

theorem findJump?_setJump (p : Performance) (b c : BeatId) (j : Jump) :
    (p.setJump b j).findJump? c = if c = b ∧ b < p.jumps.size then some j else p.findJump? c := by
  by_cases hcb : c = b
  · subst hcb
    by_cases hc : c < p.jumps.size
    · simp [findJump?, setJump, hc]
    · simp [findJump?, setJump, hc]
  · simp [findJump?, setJump, hcb, Ne.symm hcb]

/-- Changing the jump of a beat changes no other jump, and nothing at all outside the score. -/
theorem jump_modifyJump (p : Performance) (b c : BeatId) (f : Jump → Jump) :
    (p.modifyJump b f).jump c = if c = b ∧ b < p.jumps.size then f (p.jump b) else p.jump c := by
  rw [jump, modifyJump, findJump?_setJump]
  by_cases hcb : c = b ∧ b < p.jumps.size
  · simp [hcb]
  · rw [if_neg hcb, if_neg hcb]
    rfl

theorem jump_modifyJump_of_ne (p : Performance) {b c : BeatId} (hcb : c ≠ b) (f : Jump → Jump) :
    (p.modifyJump b f).jump c = p.jump c := by
  rw [jump_modifyJump, if_neg fun h => hcb h.1]

namespace IsComplete

variable {p : Performance}

theorem setJump (hp : p.IsComplete) (b : BeatId) (j : Jump) : (p.setJump b j).IsComplete := by
  refine ⟨(p.size_setJump b j).trans hp.1, ?_⟩
  intro c hsize
  have hc : c < p.jumps.size := p.size_setJump b j ▸ hsize
  by_cases hcb : c = b
  · subst hcb
    exact ⟨j, by simp [Performance.setJump, Array.getElem?_setIfInBounds_self_of_lt hc]⟩
  · obtain ⟨i, hi⟩ := hp.2 c hc
    exact ⟨i, by simpa [Performance.setJump, Array.getElem?_setIfInBounds, Ne.symm hcb] using hi⟩

/-- Where all jumps are set up, setting one up does nothing. -/
theorem createJump_eq (hp : p.IsComplete) (b : BeatId) : p.createJump b = p := by
  have hjumps : p.jumps.setIfInBounds b (some (p.jump b)) = p.jumps := by
    by_cases hb : b < p.jumps.size
    · obtain ⟨j, hj⟩ := hp.2 b hb
      have hjump : p.jump b = j := by simp [jump, findJump?, hj]
      rw [hjump]
      apply Array.ext_getElem?
      intro i
      by_cases hib : b = i
      · subst hib
        rw [Array.getElem?_setIfInBounds_self_of_lt hb, hj]
      · rw [Array.getElem?_setIfInBounds_ne hib]
    · exact Array.setIfInBounds_eq_of_size_le (Nat.le_of_not_lt hb)
  rw [createJump, Performance.setJump, hjumps]

end IsComplete

end Gamelan.Performance
