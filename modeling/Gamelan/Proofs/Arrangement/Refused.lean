import Gamelan.Proofs.Arrangement.Faults

namespace Gamelan

namespace Arrangement

/-- Gongans with their marked directives only. The marks go through all of them. -/
def pickGongans : List Gongan → List Bool → List Gongan
  | [], _ => []
  | g :: gs, marks =>
    { g with directives := pick g.directives marks } :: pickGongans gs (marks.drop g.directives.length)

end Arrangement

/-- A score with its marked directives only. -/
def Score.pick (s : Score) (marks : List Bool) : Score :=
  { s with gongans := (Arrangement.pickGongans s.gongans.toList marks).toArray }

/-- A performance as that of another score. -/
def Performance.withScore (p : Performance) (t : Score) : Performance := { p with score := t }

namespace Arrangement

theorem pick_append {α : Type} (xs ys : List α) (marks : List Bool) :
    pick (xs ++ ys) marks = pick xs marks ++ pick ys (marks.drop xs.length) := by
  induction xs generalizing marks with
  | nil => rfl
  | cons x xs ih =>
    cases marks with
    | nil => cases ys <;> rfl
    | cons mark marks => cases mark <;> simp [pick, ih]

theorem pick_map {α β : Type} (f : α → β) (xs : List α) (marks : List Bool) :
    pick (xs.map f) marks = (pick xs marks).map f := by
  induction xs generalizing marks with
  | nil => rfl
  | cons x xs ih =>
    cases marks with
    | nil => rfl
    | cons mark marks => cases mark <;> simp [pick, ih]

theorem bareDirectives_pick (s : Score) (marks : List Bool) :
    bareDirectives (s.pick marks) = pick (bareDirectives s) marks := by
  simp only [bareDirectives, directives, Score.pick]
  generalize s.gongans.toList = gs
  induction gs generalizing marks with
  | nil => rfl
  | cons g gs ih =>
    simp only [pickGongans, List.flatMap_cons, List.map_append, ih, pick_append, List.length_map, List.map_map]
    congr 1
    exact (pick_map _ _ _).symm

theorem bare_pick (s : Score) (marks : List Bool) : (s.pick marks).bare = s.bare := by
  have hbare : (pickGongans s.gongans.toList marks).map Gongan.bare = s.gongans.toList.map Gongan.bare := by
    generalize s.gongans.toList = gs
    induction gs generalizing marks with
    | nil => rfl
    | cons g gs ih =>
      rw [pickGongans, List.map_cons, ih]
      rfl
  have harray : (s.pick marks).gongans.map Gongan.bare = s.gongans.map Gongan.bare := by
    apply Array.toList_inj.1
    simpa [Score.pick] using hbare
  rw [Score.bare, harray]
  rfl

section Pick

variable {σ : Type} {step : σ → Gongan → Directive → Except DirectiveFault σ}

/-- Without the directives that it refuses or takes no notice of, a step comes to the same end and finds nothing. -/
theorem applyAll_pick {s : σ} {ds : List (Gongan × Directive)} {marks : List Bool} (hlength : marks.length = ds.length)
    (hkept : ∀ i : Nat, marks[i]? = some true → (verdicts step s ds)[i]? = some none)
    (hdropped : ∀ (i : Nat) (x : Gongan × Directive), ds[i]? = some x → marks[i]? = some false →
      (verdicts step s ds)[i]? ≠ some none ∨ ∀ s, step s x.1 x.2 = .ok s) :
    applyAll step s (pick ds marks) = ((applyAll step s ds).1, []) := by
  induction ds generalizing s marks with
  | nil => rfl
  | cons head rest ih =>
    obtain ⟨g, d⟩ := head
    cases marks with
    | nil => simp at hlength
    | cons mark marks =>
      rw [verdicts] at hkept hdropped
      rw [applyAll]
      cases h : step s g d with
      | ok t =>
        rw [h] at hkept hdropped
        have hrest := ih (by simpa using hlength) (fun i => hkept (i + 1)) fun i => hdropped (i + 1)
        cases mark with
        | true =>
          rw [pick, if_pos rfl, applyAll, h]
          exact hrest
        | false =>
          rcases hdropped 0 (g, d) rfl rfl with hrefused | hignored
          · exact absurd rfl hrefused
          · obtain rfl : s = t := Except.ok.inj ((hignored s).symm.trans h)
            exact hrest
      | error fault =>
        rw [h] at hkept hdropped
        have hrest := ih (by simpa using hlength) (fun i => hkept (i + 1)) fun i => hdropped (i + 1)
        cases mark with
        | true => cases hkept 0 rfl
        | false => exact hrest

/-- A step that takes a performance as that of another score goes the same way. -/
theorem applyAll_withScore {step : Performance → Gongan → Directive → Except DirectiveFault Performance} {t : Score}
    (hscore : ∀ p q g d, step p g d = .ok q → q.score = p.score)
    (hstep : ∀ p g d, t.bare = p.score.bare → step (p.withScore t) g d = (step p g d).map (·.withScore t))
    {p : Performance} (ht : t.bare = p.score.bare) (ds : List (Gongan × Directive)) :
    applyAll step (p.withScore t) ds = ((applyAll step p ds).1.withScore t, (applyAll step p ds).2) := by
  induction ds generalizing p with
  | nil => rfl
  | cons head rest ih =>
    obtain ⟨g, d⟩ := head
    rw [applyAll, applyAll, hstep p g d ht]
    cases h : step p g d with
    | ok q => exact ih (by rw [hscore p q g d h, ht])
    | error fault =>
      rw [Except.map, ih ht]

end Pick

end Arrangement

namespace Performance

variable {p : Performance} {t : Score}

theorem bare_withScore (ht : t.bare = p.score.bare) : (p.withScore t).bare = p.bare := by
  rw [bare, bare, ← ht]
  rfl

theorem modifyJump_withScore (ht : t.bare = p.score.bare) (b : BeatId) (f : Jump → Jump) :
    (p.withScore t).modifyJump b f = (p.modifyJump b f).withScore t := by
  have hjump : (p.withScore t).jump b = p.jump b := congrArg (·.jump b) (bare_withScore ht)
  rw [modifyJump, hjump]
  rfl

theorem createJumps_withScore (ht : t.bare = p.score.bare) (bs : List BeatId) :
    bs.foldl createJump (p.withScore t) = (bs.foldl createJump p).withScore t := by
  induction bs generalizing p with
  | nil => rfl
  | cons b bs ih =>
    rw [List.foldl_cons, List.foldl_cons, ← ih (p := p.createJump b) ht]
    exact congrArg (bs.foldl createJump) (modifyJump_withScore ht b id)

end Performance

namespace Arrangement

variable {settings : Settings} {labels : Labels} {p q : Performance} {g : Gongan} {d : Directive} {t : Score}

theorem directStep_score (h : directStep settings labels p g d = .ok q) : q.score = p.score := by
  rcases directStep_cases h with rfl | ⟨b, f, -, rfl⟩ | ⟨count, -, rfl⟩ | ⟨quantity, b, r, -, rfl⟩
  · rfl
  · rfl
  · rfl
  · cases quantity <;> rfl

theorem directStep_size (h : directStep settings labels p g d = .ok q) : q.jumps.size = p.jumps.size := by
  rcases directStep_cases h with rfl | ⟨b, f, -, rfl⟩ | ⟨count, -, rfl⟩ | ⟨quantity, b, r, -, rfl⟩
  · rfl
  · exact p.size_modifyJump b f
  · rfl
  · cases quantity <;> rfl

theorem sequenceStep_score (h : sequenceStep labels p g d = .ok q) : q.score = p.score :=
  sequenceStep_invariant (I := fun r => r.score = p.score) (fun _ _ _ _ hr => hr) rfl h

/-- Nothing that is set up depends on the other directives of a score. -/
theorem isCongruence_withScore (t : Score) :
    IsCongruence fun p q => t.bare = p.score.bare ∧ q = p.withScore t where
  hasLoop := by
    rintro p q ⟨-, rfl⟩ n
    rfl
  links := by
    rintro p q ⟨ht, rfl⟩ taken beats
    rw [← links_bare (p.withScore t), Performance.bare_withScore ht, links_bare]
  modifyJump := by
    rintro p q ⟨ht, rfl⟩ b f
    exact ⟨ht, Performance.modifyJump_withScore ht b f⟩
  setLoop := by
    rintro p q ⟨ht, rfl⟩ n l
    exact ⟨ht, rfl⟩
  addRamp := by
    rintro p q ⟨ht, rfl⟩ quantity b r
    cases quantity <;> exact ⟨ht, rfl⟩

theorem directStep_withScore (ht : t.bare = p.score.bare) (settings : Settings) (labels : Labels) (g : Gongan)
    (d : Directive) :
    directStep settings labels (p.withScore t) g d = (directStep settings labels p g d).map (·.withScore t) :=
  ((isCongruence_withScore t).directStep_alike ⟨ht, rfl⟩ settings labels g d).eq_map fun _ _ h => h.2

theorem sequenceStep_withScore (ht : t.bare = p.score.bare) (labels : Labels) (g : Gongan) (d : Directive) :
    sequenceStep labels (p.withScore t) g d = (sequenceStep labels p g d).map (·.withScore t) :=
  ((isCongruence_withScore t).sequenceStep_alike ⟨ht, rfl⟩ labels g d).eq_map fun _ _ h => h.2

end Arrangement

namespace Score

open Arrangement

variable {s : Score} {settings : Settings} {p : Performance} {faults : List (List DirectiveFault)}

/-- A stage comes to the same end without the directives in which a fault is found, and finds nothing. -/
theorem applyAll_directives_pick {σ : Type} (stage : Stage) (step : σ → Gongan → Directive → Except DirectiveFault σ)
    (start : σ) (hstep : ∀ s g d, step s g.bare d = step s g d)
    (hignored : ∀ s g d, d.stage ≠ stage → step s g d = .ok s)
    (hverdicts : s.verdicts settings p stage = Arrangement.verdicts step start (directives s))
    (hlength : faults.length = (directives s).length)
    (hfaults : ∀ (i : Nat) (x : Gongan × Directive), (directives s)[i]? = some x →
      faults[i]? = some ((s.verdicts settings p x.2.stage)[i]?).join.toList) :
    applyAll step start (directives (s.pick (faults.map List.isEmpty))) =
      ((applyAll step start (directives s)).1, []) := by
  rw [← applyAll_bare hstep start (directives (s.pick _))]
  change applyAll step start (bareDirectives (s.pick _)) = _
  rw [bareDirectives_pick, bareDirectives, pick_map, applyAll_bare hstep]
  refine applyAll_pick (by simpa using hlength) ?_ ?_
  · intro i hmark
    have hi : i < (directives s).length := by
      obtain ⟨hi, -⟩ := List.getElem?_eq_some_iff.1 hmark
      simpa [hlength] using hi
    have hx := List.getElem?_eq_getElem hi
    rw [← hverdicts]
    by_cases hstage : (directives s)[i].2.stage = stage
    · rw [List.getElem?_map, hfaults i _ hx, hstage] at hmark
      have hlt : i < (s.verdicts settings p stage).length := by rwa [length_verdicts]
      rw [List.getElem?_eq_getElem hlt] at hmark ⊢
      cases hv : (s.verdicts settings p stage)[i] with
      | none => rfl
      | some fault => simp [hv] at hmark
    · exact verdicts_of_stage_ne hx hstage
  · intro i x hx hmark
    rw [← hverdicts]
    by_cases hstage : x.2.stage = stage
    · rw [List.getElem?_map, hfaults i x hx, hstage] at hmark
      left
      intro hnone
      simp [hnone] at hmark
    · exact .inr fun s => hignored s x.1 x.2 hstage

/-- A directive is reported at most once, by the stage that it belongs to, and then it leaves no trace: without the
reported ones a score has the same jumps, loops and ramps, in the same order, and nothing is reported any more. -/
theorem arrange_pick_faultless {a : Arrangement} (h : s.arrange settings = .ok a) :
    ∃ faults, s.faults settings = .ok faults ∧ faults.length = (directives s).length ∧
      (∀ fs ∈ faults, fs.length ≤ 1) ∧
      (a.findings = [Stage.labels, .direct, .sequences].flatMap fun stage =>
        findingsOf (((directives s).zip faults).filter (·.1.2.stage = stage))) ∧
      ∃ b, (s.pick (faults.map List.isEmpty)).arrange settings = .ok b ∧ b.findings = [] ∧
        b.performance = a.performance.withScore (s.pick (faults.map List.isEmpty)) := by
  obtain ⟨p, hp, hperformance, -⟩ := arrange_eq_ok_iff.1 h
  obtain ⟨faults, hfaults, hlength, hown⟩ := exists_faults hp
  refine ⟨faults, hfaults, hlength, ?_, arrange_findings h hfaults, ?_⟩
  · intro fs hfs
    obtain ⟨i, hi⟩ := List.getElem?_of_mem hfs
    have hx := List.getElem?_eq_getElem (hlength ▸ (List.getElem?_eq_some_iff.1 hi).1 : i < (directives s).length)
    rw [← Option.some.inj ((hown i _ hx).symm.trans hi)]
    exact Option.length_toList_le
  generalize ht : s.pick (faults.map List.isEmpty) = t
  have hbare : t.bare = s.bare := by rw [← ht, bare_pick]
  have hlabels := applyAll_directives_pick (p := p) .labels labelStep .empty (fun _ _ d => by cases d <;> rfl)
    (fun labels g _ hd => labelStep_of_stage_ne hd labels g) rfl hlength hown
  have hdirect := applyAll_directives_pick (p := p) .direct (directStep settings s.labels) p
    (fun _ _ d => by cases d <;> rfl) (fun p g _ hd => directStep_of_stage_ne hd settings s.labels p g) rfl hlength hown
  have hsequences := applyAll_directives_pick (p := p) .sequences (sequenceStep s.labels) (s.direct settings p)
    (fun _ _ d => by cases d <;> rfl) (fun p g _ hd => sequenceStep_of_stage_ne hd s.labels p g) rfl hlength hown
  rw [ht] at hlabels hdirect hsequences
  have hsame : t.labels = s.labels := by rw [Score.labels, hlabels, Score.labels]
  have hscore : t.bare = p.score.bare := by rw [hbare, plain_score hp]
  have hplain : t.plain settings = .ok (p.withScore t) := by
    obtain ⟨tempo, dynamics, htempo, hdynamics, rfl⟩ := plain_eq_ok_iff.1 hp
    refine plain_eq_ok_iff.2 ⟨tempo, dynamics, htempo, hdynamics, ?_⟩
    rw [← ht, ← Performance.createJumps_withScore (bare_pick s _)]
    rfl
  have hdirect' : applyAll (directStep settings t.labels) (p.withScore t) (directives t) =
      ((s.direct settings p).withScore t, []) := by
    rw [hsame, applyAll_withScore (fun _ _ _ _ h => directStep_score h)
      (fun p g d ht => directStep_withScore ht settings s.labels g d) hscore, hdirect]
    rfl
  have hdirectScore : t.bare = (s.direct settings p).score.bare := by
    rw [hscore, Score.direct]
    exact congrArg Score.bare (applyAll_invariant (I := fun q => p.score = q.score) _
      (fun q g d r _ hq hr => hq.trans (directStep_score hr).symm) rfl)
  have hsequences' : applyAll (sequenceStep t.labels) (t.direct settings (p.withScore t)) (directives t) =
      ((s.arranged settings p).withScore t, []) := by
    rw [Score.direct, hdirect', hsame, applyAll_withScore (fun _ _ _ _ h => sequenceStep_score h)
      (fun p g d ht => sequenceStep_withScore ht s.labels g d) hdirectScore, hsequences]
    rfl
  refine ⟨⟨t.arranged settings (p.withScore t), []⟩, arrange_eq_ok_iff.2 ⟨_, hplain, rfl, ?_, ?_⟩, rfl, ?_⟩
  · rw [findings, hlabels, hdirect', hsequences']
    rfl
  · rw [overflows, hsequences']
    rfl
  · rw [Score.arranged, hsequences', hperformance]

/-- Labels, gotos, loops and a ramp with faults, and a sequence whose second jump finds no pass. -/
theorem arrange_pick_faultless_of_half_a_sequence :
    let m : Manuscript := { gongans := [
      { directives := [.label "A" 1, .label "A" 1, .label "D" 2, .loop 0, .loop 2, .loop 3], beats := [{}] },
      { directives := [.label "B" 1, .goto "B" none [1] (some 1), .goto "C" none [] none], beats := [{}] },
      { directives := [.sequence ["A", "B", "A"], .tempo 90 { firstBeat := 2 }, .sequence ["A", "A"]],
        beats := [{}] }] }
    ∃ s a, m.toScore = .ok s ∧ s.arrange {} = .ok a ∧ a.findings.length = 7 ∧
      ∃ faults, s.faults {} = .ok faults ∧ (∀ fs ∈ faults, fs.length ≤ 1) ∧
        ∃ b, (s.pick (faults.map List.isEmpty)).arrange {} = .ok b ∧ b.findings = [] ∧
          b.performance = a.performance.withScore (s.pick (faults.map List.isEmpty)) := by
  intro m
  have harrangement : ∃ s a, m.toScore = .ok s ∧ s.arrange {} = .ok a ∧ a.findings.length = 7 :=
    Manuscript.exists_arrangement (by decide +kernel)
  obtain ⟨s, a, hs, ha, hlength⟩ := harrangement
  obtain ⟨faults, hfaults, -, hone, -, b, hb, hclean, hsame⟩ := arrange_pick_faultless ha
  exact ⟨s, a, hs, ha, hlength, faults, hfaults, hone, b, hb, hclean, hsame⟩

end Score

end Gamelan
