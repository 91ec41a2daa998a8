import Gamelan.Proofs.Performance.Step

namespace Gamelan.Performance

section Congruence

variable {α : Type} {R : Performance → Performance → Prop} {f : Played → α}
  (hnext : ∀ p q, R p q → p.next.1 = q.next.1 ∧ R p.next.2 q.next.2)
  (hplayed : ∀ p q b, R p q → f (p.played b) = f (q.played b))

include hnext hplayed

/-- Two performances that stay related step by step are the same to an observer who sees related beats alike. -/
theorem finish_map_congr {acc acc' : Array Played} (hacc : acc.map f = acc'.map f) {p q : Performance} (h : R p q) :
    (finish acc p).1.map (·.map f) = (finish acc' q).1.map (·.map f) := by
  obtain ⟨hout, hrest⟩ := hnext p q h
  fun_induction finish acc p generalizing acc' q with
  | case1 acc p e p' hp =>
    rw [hp] at hout
    rw [finish_of_error (q := q.next.2) (Prod.ext hout.symm rfl)]
  | case2 acc p p' hp =>
    rw [hp] at hout
    rw [finish_of_end (q := q.next.2) (Prod.ext hout.symm rfl)]
    exact congrArg Except.ok hacc
  | case3 acc p b p' hp ih =>
    rw [hp] at hout hrest
    obtain ⟨hout', hrest'⟩ := hnext _ _ hrest
    rw [finish_of_beat (q := q.next.2) (Prod.ext hout.symm rfl)]
    exact ih (by simp [hacc, hplayed p' q.next.2 b hrest]) hrest hout' hrest'

theorem walk_map_congr {p q : Performance} {position? position'? : Option Position}
    (h : R (p.reset position?) (q.reset position'?)) :
    (p.walk position?).1.map (·.map f) = (q.walk position'?).1.map (·.map f) :=
  finish_map_congr hnext hplayed rfl h

end Congruence

namespace IsComplete

variable {p : Performance}

theorem finish_error (hp : p.IsComplete) (hcursor : p.cursor ≠ .finished) {acc : Array Played} {e : Error}
    (h : (finish acc p).1 = .error e) : e = .stepLimit p.maxSteps := by
  fun_induction finish acc p with
  | case1 acc p e' q hnext =>
    obtain rfl := Except.error.inj h
    exact hp.next_error hcursor (congrArg Prod.fst hnext)
  | case2 => cases h
  | case3 acc p b q hnext ih =>
    obtain ⟨-, -, rfl⟩ := hp.next_eq_beat_iff.1 hnext
    have hvisit : (p.visit b).cursor ≠ .finished := by
      rw [visit_cursor]
      nofun
    exact (ih (hp.visit b) hvisit h).trans (congrArg Error.stepLimit (hp.visit_maxSteps b))

/-- A walk fails only by the step limit. -/
theorem walk_error (hp : p.IsComplete) {position? : Option Position} {e : Error}
    (h : (p.walk position?).1 = .error e) : e = .stepLimit p.maxSteps :=
  (hp.reset position?).finish_error nofun h

end IsComplete

end Gamelan.Performance
