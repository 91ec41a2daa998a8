import Gamelan.Proofs.Performance.Reached

namespace Gamelan.Performance

/-- How many rounds of the loop of a gongan come before the one of an arrival at a beat of it: a round begins with each
arrival at the first beat. -/
def roundsBefore (s : Score) (before : List BeatId) (b : BeatId) : Nat := (before ++ [b]).count (s.firstBeatOf b) - 1

variable {a p : Performance} {bs : List BeatId} {b : BeatId} {l : Loop}

/-- The repetition that an arrival is in: the loop counts its rounds and knows nothing else about the way. -/
theorem Reached.currentIteration_visit (h : Reached a bs p) (ha : a.IsArranged) (hdestination : p.destination? = some b)
    (hroom : p.steps < p.maxSteps) (hloop : a.loopAt? b = some l) :
    (p.visit b).currentIteration.toNat = roundsBefore a.score bs b % l.counter.cycle.toNat + 1 := by
  have hvisit := h.visit hdestination hroom
  have hreset := hvisit.loopAt?_reset ha b
  rw [hloop] at hreset
  obtain ⟨k, hk, rfl⟩ := Option.map_eq_some_iff.1 hreset
  have hvalue := hvisit.loop_value ha hk
  have hone : (1 : UInt32).toNat = 1 := rfl
  have hcycle : k.reset.counter.cycle = k.counter.cycle := rfl
  rw [currentIteration_eq (b := b) rfl, hk, Option.elim_some, UInt32.toNat_max, hvalue, hone, hcycle, roundsBefore,
    Counter.valueAfter]
  -- Before its first round, which a way into the middle of the gongan can leave out, a loop is taken to be in it.
  by_cases hnone : (bs ++ [b]).count (a.score.firstBeatOf b) = 0
  · rw [if_pos hnone, hnone, Nat.zero_sub, Nat.zero_mod]
    rfl
  · rw [if_neg hnone]
    exact Nat.max_eq_left (Nat.succ_pos _)

/-- A loop goes on from where it was left. On an arrival at a beat of its gongan, from another gongan or from within,
the repetition is given by the rounds that it has begun; only where they fill up whole runs of the loop does it begin
afresh, and the beat is on its next pass. Otherwise a beat that is on a pass stays there. -/
theorem loop_resumes_on_arrival {m : Manuscript} {s : Score} {settings : Settings} {a : Arrangement}
    (hs : m.toScore = .ok s) (ha : s.arrange settings = .ok a) (calls : List Call) (position? : Option Position)
    {before : List BeatId} {b : BeatId} {p q : Performance} {l : Loop}
    (hp : ((a.performance.after calls).reset position?).follow before = some p) (hnext : p.next = (.ok (some b), q))
    (hloop : a.performance.loopAt? b = some l) :
    let rounds := roundsBefore s before b
    let count := l.counter.cycle.toNat
    q.currentIteration.toNat = rounds % count + 1 ∧
      (count ∣ rounds → q.jump b = (p.jump b).increment) ∧
      (¬ count ∣ rounds → (p.jump b).counter.value ≠ 0 → q.jump b = p.jump b) := by
  intro rounds count
  have harranged := Score.arrange_isArranged (Manuscript.toScore_isPlaced hs) ha
  have hscore := (Score.arrange_score ha).1
  rw [harranged.complete.reset_after] at hp
  have hreached := harranged.complete.reached_iff.2 ⟨position?, hp⟩
  have hcomplete := hreached.isComplete harranged.complete
  obtain ⟨hdestination, hroom, rfl⟩ := hcomplete.next_eq_beat_iff.1 hnext
  have hiteration := hreached.currentIteration_visit harranged hdestination hroom hloop
  rw [hscore] at hiteration
  have hafresh : ((p.visit b).loopAt? b).all (·.counter.value ≤ 1) ↔ count ∣ rounds := by
    rw [← currentIteration_eq_one_iff (b := b) rfl, ← UInt32.toNat_inj, hiteration, Nat.dvd_iff_mod_eq_zero]
    exact Nat.succ_inj
  have hjump := hreached.jump_visit harranged hdestination b
  simp only [if_true, hafresh] at hjump
  refine ⟨hiteration, fun hdvd => ?_, fun hdvd _ => ?_⟩
  · rw [hjump, if_pos hdvd]
  · rw [hjump, if_neg hdvd]

/-- Two rounds that are left at once make a whole run of the loop. -/
theorem loop_resumes_after_two_rounds :
    let m : Manuscript := { gongans := [
      { directives := [.label "A" 1, .loop 2, .goto "X" (some 1) [] none], beats := [{}, {}] },
      { directives := [.label "X" 1, .goto "A" none [1, 2] none], beats := [{}] }] }
    ∃ s a p q l, m.toScore = .ok s ∧ s.arrange {} = .ok a ∧
      ((a.performance.after [.walk none]).reset none).follow [0, 2, 0, 2] = some p ∧ p.next = (.ok (some 0), q) ∧
      a.performance.loopAt? 0 = some l ∧ q.currentIteration.toNat = 1 ∧ q.jump 0 = (p.jump 0).increment := by
  intro m
  have harrangement : ∃ s a, m.toScore = .ok s ∧ s.arrange {} = .ok a ∧
      ((((a.performance.after [.walk none]).reset none).follow [0, 2, 0, 2]).any
        (·.next.1.toOption = some (some 0))) ∧
      a.performance.loopAt? 0 = some (.ofCount 1 0 2) ∧ roundsBefore s [0, 2, 0, 2] 0 = 2 :=
    Manuscript.exists_arrangement (by decide +kernel)
  obtain ⟨s, a, hs, ha, hrun, hloop, hrounds⟩ := harrangement
  obtain ⟨p, hp, hreached⟩ := (Option.any_eq_true _ _).1 hrun
  have hnext : p.next = (.ok (some 0), p.next.2) := Prod.ext (toOption_eq_some_iff.1 (of_decide_eq_true hreached)) rfl
  obtain ⟨hiteration, hjump, -⟩ := loop_resumes_on_arrival hs ha [.walk none] none hp hnext hloop
  rw [hrounds] at hiteration hjump
  exact ⟨s, a, p, p.next.2, _, hs, ha, hp, hnext, hloop, hiteration, hjump (by decide)⟩

/-- A gongan that is left on its first beat is in the second round when it is entered again, and on the pass that it
has been on before. -/
theorem loop_resumes_after_one_round :
    let m : Manuscript := { gongans := [
      { directives := [.label "A" 1, .loop 2, .goto "X" (some 1) [] none], beats := [{}, {}] },
      { directives := [.label "X" 1, .goto "A" none [1] none], beats := [{}] }] }
    ∃ s a p q l, m.toScore = .ok s ∧ s.arrange {} = .ok a ∧ (a.performance.reset none).follow [0, 2] = some p ∧
      p.next = (.ok (some 0), q) ∧ a.performance.loopAt? 0 = some l ∧ s.gonganOf 2 ≠ s.gonganOf 0 ∧
      q.currentIteration ≠ 1 ∧ q.jump 0 ≠ (p.jump 0).increment := by
  intro m
  have harrangement : ∃ s a, m.toScore = .ok s ∧ s.arrange {} = .ok a ∧
      (((a.performance.reset none).follow [0, 2]).any fun p => p.next.1.toOption = some (some 0) ∧
        p.next.2.currentIteration ≠ 1 ∧ p.next.2.jump 0 ≠ (p.jump 0).increment) ∧
      a.performance.loopAt? 0 = some (.ofCount 1 0 2) ∧ s.gonganOf 2 ≠ s.gonganOf 0 :=
    Manuscript.exists_arrangement (by decide +kernel)
  obtain ⟨s, a, hs, ha, hrun, hloop, hentry⟩ := harrangement
  obtain ⟨p, hp, hreached⟩ := (Option.any_eq_true _ _).1 hrun
  obtain ⟨hnext, hiteration, hjump⟩ := of_decide_eq_true hreached
  have hnext : p.next = (.ok (some 0), p.next.2) := Prod.ext (toOption_eq_some_iff.1 hnext) rfl
  exact ⟨s, a, p, p.next.2, _, hs, ha, hp, hnext, hloop, hentry, hiteration, hjump⟩

end Gamelan.Performance
