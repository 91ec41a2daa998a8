import Gamelan.Proofs.Arrangement.Extensions
import Gamelan.Proofs.Arrangement.Gotos

namespace Gamelan

/-- Whether every pass with a target of its own occurs: passes go from one to the cycle. -/
def Jump.PassesOccur (j : Jump) : Prop :=
  ∀ n target, j.target? (.pass n) = some target → 1 ≤ n ∧ n ≤ j.counter.cycle

theorem Jump.passesOccur_iff {j : Jump} :
    j.PassesOccur ↔ ∀ n, (j.target? (.pass n)).isSome → 1 ≤ n ∧ n ≤ j.counter.cycle := by
  simp only [PassesOccur, Option.isSome_iff_exists]
  exact ⟨fun h n ⟨target, ht⟩ => h n target ht, fun h n target ht => h n ⟨target, ht⟩⟩

namespace Arrangement

variable {labels : Labels} {p : Performance} {ls : List Link}

/-- Setting up jumps adds their passes and removes none. -/
theorem isSome_target?_setLinks (hlt : ∀ l ∈ ls, l.fromBeat < p.jumps.size) (e : BeatId) (n : UInt32) :
    (((p.setLinks ls).jump e).target? (.pass n)).isSome ↔
      ((p.jump e).target? (.pass n)).isSome ∨ ∃ l ∈ ls, l.fromBeat = e ∧ l.pass = n := by
  induction ls generalizing p with
  | nil => simp [Performance.setLinks]
  | cons l ls ih =>
    obtain ⟨hl, hls⟩ := List.forall_mem_cons.1 hlt
    have hset : (((p.modifyJump l.fromBeat (·.set (.pass l.pass) (some l.toBeat))).jump e).target? (.pass n)).isSome ↔
        ((p.jump e).target? (.pass n)).isSome ∨ l.fromBeat = e ∧ l.pass = n := by
      rw [Performance.target?_modifyJump_set hl]
      split
      next hsame => simp [hsame]
      next hother => simp [show ¬ (l.fromBeat = e ∧ l.pass = n) from fun h => hother ⟨h.1.symm, h.2.symm⟩]
    refine (ih (p := p.modifyJump l.fromBeat (·.set (.pass l.pass) (some l.toBeat))) (by simpa using hls)).trans ?_
    rw [hset, List.exists_mem_cons_iff, or_assoc]

/-- After the sequences, a beat has the passes that it has had before and those of the jumps that leave it. -/
theorem isSome_target?_applyAll_sequenceStep (hends : HasEnds labels p) (ds : List (Gongan × Directive)) (e : BeatId)
    (n : UInt32) :
    (((applyAll (sequenceStep labels) p ds).1.jump e).target? (.pass n)).isSome ↔
      ((p.jump e).target? (.pass n)).isSome ∨
        ∃ l ∈ (extensions labels p ds).flatMap (·.links), l.fromBeat = e ∧ l.pass = n := by
  induction ds generalizing p with
  | nil => simp [applyAll, extensions]
  | cons head rest ih =>
    obtain ⟨g, d⟩ := head
    obtain ⟨hsame, hall⟩ | ⟨names, beats, ls, hbeats, hls, hcons, hall⟩ := extensions_cons_cases labels p g d rest
    · rw [hsame, hall]
      exact ih hends
    · rw [hcons, hall, ih (hends.setLinks ls), List.flatMap_cons,
        isSome_target?_setLinks fun l hl => fromBeat_lt hends hbeats hls hl, or_assoc]
      simp only [List.mem_append, or_and_right, exists_or]

/-- The jumps of the sequences are on passes within the cycles of the beats that they leave. -/
theorem pass_bounds_of_mem_extensions (labels : Labels) (p : Performance) (ds : List (Gongan × Directive)) :
    ∀ l ∈ (extensions labels p ds).flatMap (·.links),
      1 ≤ l.pass ∧ l.pass ≤ (p.jump l.fromBeat).counter.cycle := by
  induction ds generalizing p with
  | nil => nofun
  | cons head rest ih =>
    obtain ⟨g, d⟩ := head
    obtain ⟨hsame, -⟩ | ⟨names, beats, ls, -, hls, hcons, -⟩ := extensions_cons_cases labels p g d rest
    · rw [hsame]
      exact ih p
    · rw [hcons, List.flatMap_cons]
      refine List.forall_mem_append.2 ⟨fun l hl => ?_, fun l hl => ?_⟩
      · exact ⟨(follows_maxPass hls).one_le hl, (of_mem_links hls hl).1⟩
      · have hbounds := ih (p.setLinks ls) l hl
        rwa [(p.jump_setLinks ls l.fromBeat).2] at hbounds

end Arrangement

open Arrangement

namespace Score

variable {s : Score} {settings : Settings}

/-- Every pass with a target of its own occurs exactly if, at every beat, no accepted goto lists a pass beyond the last
cycle that an accepted goto gives the beat, whichever goto that is. A goto is only held against the cycle that it gives
itself, and a sequence against the cycle of the beat. -/
theorem passes_occur_iff {m : Manuscript} {a : Arrangement} (hs : m.toScore = .ok s)
    (h : s.arrange settings = .ok a) :
    ∃ ds, s.acceptedDirectives settings = .ok ds ∧
      ((∀ e < s.beats.size, (a.performance.jump e).PassesOccur) ↔
        ∀ e < s.beats.size, ∀ d ∈ s.departures ds e, ∀ n ∈ d.passes, n ≤ lastCycle (s.departures ds e)) := by
  obtain ⟨p, hp, ha⟩ := arrange_performance h
  obtain ⟨ds, hds⟩ := exists_acceptedDirectives h
  refine ⟨ds, hds, ?_⟩
  have hends : HasEnds s.labels (s.direct settings p) := direct_hasEnds (Manuscript.toScore_isPlaced hs) hp
  let links := (extensions s.labels (s.direct settings p) (directives s)).flatMap (·.links)
  have hcycle (e : BeatId) (he : e < s.beats.size) :
      (a.performance.jump e).counter.cycle = lastCycle (s.departures ds e) := by
    obtain ⟨⟨-, hcounter⟩, -⟩ := jump_applyAll_sequenceStep hends (directives s) e
    rw [ha, arranged, hcounter]
    exact (direct_passes hp hds he).2
  have hpass (e : BeatId) (he : e < s.beats.size) (n : UInt32) :
      ((a.performance.jump e).target? (.pass n)).isSome ↔
        (∃ d ∈ s.departures ds e, n ∈ d.passes) ∨ ∃ l ∈ links, l.fromBeat = e ∧ l.pass = n := by
    rw [ha, arranged, isSome_target?_applyAll_sequenceStep hends, (direct_passes hp hds he).1]
  simp only [Jump.passesOccur_iff]
  constructor
  · intro hoccur e he d hd n hn
    rw [← hcycle e he]
    exact (hoccur e he n ((hpass e he n).2 (.inl ⟨d, hd, hn⟩))).2
  · intro hgotos e he n hn
    rcases (hpass e he n).1 hn with ⟨d, hd, hlist⟩ | ⟨l, hl, rfl, rfl⟩
    · have hne : n.toNat ≠ 0 := fun hzero =>
        ne_zero_of_mem_departures hp hds hd hlist (UInt32.toNat_inj.1 hzero)
      exact ⟨UInt32.le_iff_toNat_le.2 (Nat.one_le_iff_ne_zero.2 hne), hcycle e he ▸ hgotos e he d hd n hlist⟩
    · obtain ⟨hone, hle⟩ := pass_bounds_of_mem_extensions s.labels (s.direct settings p) (directives s) l hl
      refine ⟨hone, ?_⟩
      rwa [hcycle _ he, ← (direct_passes hp hds he).2]

/-- Two gotos and a sequence that share a beat: one goto gives the cycle within which the others stay. -/
theorem passes_occur_of_shared_beat :
    let m : Manuscript := { gongans := [
      { directives := [.label "A" 1, .goto "B" none [2] none, .goto "B" none [1] (some 3)], beats := [{}] },
      { directives := [.label "B" 1], beats := [{}] },
      { directives := [.label "C" 1, .sequence ["A", "C"]], beats := [{}] }] }
    ∃ s a, m.toScore = .ok s ∧ s.arrange {} = .ok a ∧ a.findings = [] ∧
      (a.performance.jump 0).target? (.pass 3) = some (some 2) ∧
      ∀ e < s.beats.size, (a.performance.jump e).PassesOccur := by
  intro m
  have harrangement : ∃ s a, m.toScore = .ok s ∧ s.arrange {} = .ok a ∧
      ((a.findings = [] ∧ (a.performance.jump 0).target? (.pass 3) = some (some 2)) ∧
        (s.acceptedDirectives {}).toOption.any fun ds => ∀ e < s.beats.size,
          (s.departures ds e).all fun d => d.passes.all fun n => n ≤ lastCycle (s.departures ds e)) :=
    Manuscript.exists_arrangement (by decide +kernel)
  obtain ⟨s, a, hs, ha, hfirst, hrun⟩ := harrangement
  obtain ⟨ds, hds, hrun⟩ := (Option.any_eq_true _ _).1 hrun
  obtain ⟨ds', hds', hiff⟩ := passes_occur_iff hs ha
  obtain rfl : ds = ds' := Except.ok.inj ((toOption_eq_some_iff.1 hds).symm.trans hds')
  refine ⟨s, a, hs, ha, hfirst.1, hfirst.2, hiff.2 fun e he d hd n hn => ?_⟩
  have hgotos := of_decide_eq_true hrun e he
  exact of_decide_eq_true (List.all_eq_true.1 (List.all_eq_true.1 hgotos d hd) n hn)

/-- A goto gives its beat a cycle of two, and the one after it is accepted with pass five, which does not occur. -/
theorem pass_beyond_cycle_of_other_goto :
    let m : Manuscript := { gongans := [
      { directives := [.label "A" 1, .goto "A" none [1] (some 2), .goto "A" none [5] none], beats := [{}] }] }
    ∃ s a, m.toScore = .ok s ∧ s.arrange {} = .ok a ∧ a.findings = [] ∧
      (a.performance.jump 0).target? (.pass 5) = some (some 0) ∧ (a.performance.jump 0).counter.cycle = 2 ∧
      ¬ (a.performance.jump 0).PassesOccur := by
  intro m
  have harrangement : ∃ s a, m.toScore = .ok s ∧ s.arrange {} = .ok a ∧ (a.findings = [] ∧
      (a.performance.jump 0).target? (.pass 5) = some (some 0) ∧ (a.performance.jump 0).counter.cycle = 2) :=
    Manuscript.exists_arrangement (by decide +kernel)
  obtain ⟨s, a, hs, ha, hfindings, htarget, hcycle⟩ := harrangement
  refine ⟨s, a, hs, ha, hfindings, htarget, hcycle, fun hoccur => ?_⟩
  have hle := (hoccur 5 (some 0) htarget).2
  rw [hcycle] at hle
  exact absurd hle (by decide)

end Score

end Gamelan
