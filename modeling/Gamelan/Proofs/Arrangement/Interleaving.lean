import Gamelan.Proofs.Arrangement.Extensions
import Gamelan.Proofs.Arrangement.Refused
import Mathlib.Data.List.Count

namespace Gamelan

/-- Whether two scores differ at most in how the directives of each gongan are interleaved: directives of one kind stand
in the same order in both. -/
def Score.IsInterleaved {κ : Type} [DecidableEq κ] (kind : Directive → κ) (s t : Score) : Prop :=
  ∀ k, (s.only fun d => kind d = k) = t.only fun d => kind d = k

/-- Lists with the same elements of every kind, in the same order within the kind, are permutations of each other. -/
theorem perm_of_filter_eq {α κ : Type} [DecidableEq κ] (kind : α → κ) {xs ys : List α}
    (h : ∀ k, xs.filter (kind · = k) = ys.filter (kind · = k)) : xs.Perm ys := by
  classical
  refine List.perm_iff_count.2 fun a => ?_
  have hcount := congrArg (List.count a) (h (kind a))
  rwa [List.count_filter (by simp), List.count_filter (by simp)] at hcount

namespace Arrangement

section Filter

variable {R : Performance → Performance → Prop} {keep : Directive → Bool}
  {step : Performance → Gongan → Directive → Except DirectiveFault Performance}
  (hkeep : ∀ p q g d, keep d → R p q → Alike R (step p g d) (step q g d))
  (hdrop : ∀ p p' q g d, keep d = false → R p q → step p g d = .ok p' → R p' q)

include hkeep hdrop

/-- Directives that a relation sees are judged the same without those that it does not see. -/
theorem filter_zip_verdicts (ds : List (Gongan × Directive)) {p q : Performance} (h : R p q) :
    (ds.zip (verdicts step p ds)).filter (keep ·.1.2) =
      (ds.filter (keep ·.2)).zip (verdicts step q (ds.filter (keep ·.2))) := by
  induction ds generalizing p q with
  | nil => rfl
  | cons head rest ih =>
    obtain ⟨g, d⟩ := head
    cases hd : keep d with
    | false =>
      rw [verdicts]
      cases hp : step p g d with
      | error fault => simpa [hd] using ih h
      | ok p' => simpa [hd] using ih (hdrop p p' q g d hd h hp)
    | true =>
      have halike := hkeep p q g d hd h
      rw [List.filter_cons, hd, if_pos rfl, verdicts, verdicts]
      cases hp : step p g d with
      | error fault =>
        cases hq : step q g d with
        | error fault' =>
          rw [hp, hq] at halike
          obtain rfl : fault = fault' := halike
          simpa [hd] using ih h
        | ok q' => simp [hp, hq, Alike] at halike
      | ok p' =>
        cases hq : step q g d with
        | error fault => simp [hp, hq, Alike] at halike
        | ok q' =>
          rw [hp, hq] at halike
          simpa [hd] using ih halike

end Filter

end Arrangement

/-- A performance without what directives of other kinds set up. -/
def Directive.Kind.part (k : Directive.Kind) (p : Performance) : Performance :=
  { p with
    jumps := if k = .goto then p.jumps else #[]
    loops := if k = .loop then p.loops else .empty
    tempo := if k = .ramp .tempo then p.tempo else { ramps := #[] }
    dynamics := if k = .ramp .dynamics then p.dynamics else { ramps := #[] } }

namespace Performance

variable {p q : Performance} {k : Directive.Kind}

/-- A performance is known from its parts. -/
theorem eq_of_parts (h : ∀ k : Directive.Kind, k.part p = k.part q) : p = q := by
  have hgoto := h .goto
  have hloops : p.loops = q.loops := congrArg (·.loops) (h .loop)
  have htempo : p.tempo = q.tempo := congrArg (·.tempo) (h (.ramp .tempo))
  have hdynamics : p.dynamics = q.dynamics := congrArg (·.dynamics) (h (.ramp .dynamics))
  cases p
  cases q
  simp_all [Directive.Kind.part]

theorem part_modifyJump (hk : k ≠ .goto) (b : BeatId) (f : Jump → Jump) : k.part (p.modifyJump b f) = k.part p := by
  simp only [Directive.Kind.part, modifyJump, setJump, if_neg hk]

theorem part_setLoop (hk : k ≠ .loop) (n : Nat) (l : Loop) : k.part (p.setLoop n l) = k.part p := by
  simp only [Directive.Kind.part, setLoop, if_neg hk]

theorem part_addRamp {quantity : Quantity} (hk : k ≠ .ramp quantity) (b : BeatId) (r : Ramp) :
    k.part (p.addRamp quantity b r) = k.part p := by
  cases quantity <;> simp only [Directive.Kind.part, addRamp, if_neg hk]

end Performance

namespace Arrangement

variable {settings : Settings} {labels : Labels} {p q : Performance} {g : Gongan} {d : Directive} {k : Directive.Kind}

/-- A directive does nothing to what other kinds set up. -/
theorem part_directStep (hk : k ≠ d.kind) (h : directStep settings labels p g d = .ok q) : k.part q = k.part p := by
  cases d with
  | label name beat => rw [← Except.ok.inj h]
  | «sequence» names => rw [← Except.ok.inj h]
  | goto label fromBeat? passes cycle? =>
    obtain ⟨target, b, -, -, -, -, rfl⟩ := addGoto_eq_ok_iff.1 h
    exact Performance.part_modifyJump hk b _
  | loop count =>
    obtain ⟨-, -, rfl⟩ := addLoop_eq_ok_iff.1 h
    exact Performance.part_setLoop hk _ _
  | tempo value extent =>
    obtain ⟨b, r, -, -, -, rfl⟩ := addRamp_eq_ok_iff.1 h
    exact Performance.part_addRamp hk b _
  | dynamics mark extent positions =>
    rw [directStep] at h
    cases hmark : settings.velocityFor? mark with
    | none => simp [hmark] at h
    | some velocity =>
      simp only [hmark] at h
      obtain ⟨b, r, -, -, -, rfl⟩ := addRamp_eq_ok_iff.1 h
      exact Performance.part_addRamp hk b _

/-- A directive looks at what its own kind has set up and at nothing else. -/
theorem directStep_alike_of_part (h : d.kind.part p = d.kind.part q) :
    Alike (fun p q => d.kind.part p = d.kind.part q) (directStep settings labels p g d)
      (directStep settings labels q g d) := by
  refine directStep_alike_of_kind (R := fun p q => d.kind.part p = d.kind.part q) h ?_ ?_ ?_ settings labels
  · intro hd b f
    rw [hd] at h ⊢
    exact congrArg (·.modifyJump b f) h
  · intro hd
    rw [hd] at h ⊢
    exact ⟨congrArg (·.hasLoop g.id) h, fun n l => congrArg (·.setLoop n l) h⟩
  · intro quantity hd b r
    rw [hd] at h ⊢
    have hadd := congrArg (·.addRamp quantity b r) h
    cases quantity <;> exact hadd

/-- Directives come to the same end however those of different kinds are interleaved, and the same is found in them. -/
theorem applyAll_directStep_of_filter_eq {xs ys : List (Gongan × Directive)}
    (h : ∀ k : Directive.Kind, xs.filter (·.2.kind = k) = ys.filter (·.2.kind = k)) (settings : Settings)
    (labels : Labels) (p : Performance) :
    (applyAll (directStep settings labels) p xs).1 = (applyAll (directStep settings labels) p ys).1 ∧
      (applyAll (directStep settings labels) p xs).2.Perm (applyAll (directStep settings labels) p ys).2 := by
  have hkeep (k : Directive.Kind) (p q : Performance) (g : Gongan) (d : Directive) (hd : decide (d.kind = k))
      (hpq : k.part p = k.part q) : Alike (fun p q => k.part p = k.part q) (directStep settings labels p g d)
        (directStep settings labels q g d) := by
    obtain rfl := of_decide_eq_true hd
    exact directStep_alike_of_part hpq
  have hdrop (k : Directive.Kind) (p p' q : Performance) (g : Gongan) (d : Directive)
      (hd : decide (d.kind = k) = false) (hpq : k.part p = k.part q)
      (hp : directStep settings labels p g d = .ok p') : k.part p' = k.part q :=
    (part_directStep (Ne.symm (of_decide_eq_false hd)) hp).trans hpq
  constructor
  · refine Performance.eq_of_parts fun k => ?_
    have hxs := applyAll_filter (hkeep k) (hdrop k) xs (rfl : k.part p = k.part p)
    have hys := applyAll_filter (hkeep k) (hdrop k) ys (rfl : k.part p = k.part p)
    exact hxs.trans (h k ▸ hys.symm)
  · rw [applyAll_findings, applyAll_findings]
    refine (perm_of_filter_eq (·.1.2.kind) fun k => ?_).filterMap _
    have hxs := filter_zip_verdicts (hkeep k) (hdrop k) xs (rfl : k.part p = k.part p)
    have hys := filter_zip_verdicts (hkeep k) (hdrop k) ys (rfl : k.part p = k.part p)
    rw [hxs, hys, h k]

end Arrangement

namespace Score

open Arrangement

variable {s t : Score} {settings : Settings}

/-- The plain performance does not depend on the directives. -/
theorem plain_of_bare_eq (h : t.bare = s.bare) (settings : Settings) :
    t.plain settings = (s.plain settings).map (·.withScore t) := by
  have hbeats : t.beats = s.beats := congrArg (·.beats) h
  rw [plain, plain, Performance.ofScore, Performance.ofScore]
  cases Schedule.ofDefault .tempo settings.defaultTempo with
  | error fault => rfl
  | ok tempo =>
    cases Schedule.ofDefault .dynamics settings.defaultVelocity with
    | error fault => rfl
    | ok dynamics =>
      have hjumps := Performance.createJumps_withScore (t := t) (p := {
        score := s, tempo, dynamics, maxSteps := settings.maxSteps, jumps := Array.replicate s.beats.size none }) h
        (List.range s.beats.size)
      rw [hbeats]
      exact congrArg Except.ok hjumps

theorem filter_bareDirectives {κ : Type} [DecidableEq κ] {kind : Directive → κ} (h : s.IsInterleaved kind t) (k : κ) :
    (bareDirectives s).filter (kind ·.2 = k) = (bareDirectives t).filter (kind ·.2 = k) := by
  have hs := bareDirectives_only s fun d => kind d = k
  have ht := bareDirectives_only t fun d => kind d = k
  rw [← hs, ← ht, h k]

theorem bare_eq {κ : Type} [DecidableEq κ] {kind : Directive → κ} (h : s.IsInterleaved kind t) : t.bare = s.bare := by
  have hs := s.bare_only fun d => kind d = kind (.loop 0)
  have ht := t.bare_only fun d => kind d = kind (.loop 0)
  rw [← hs, ← ht, h]

/-- Two scores set up the same if each stage comes to the same end in both. -/
theorem arrange_of_stages (hbare : t.bare = s.bare)
    (hlabels : applyAll labelStep .empty (directives s) = applyAll labelStep .empty (directives t))
    (hdirect : ∀ p, (applyAll (directStep settings s.labels) p (directives s)).1 =
      (applyAll (directStep settings s.labels) p (directives t)).1)
    (hsequences : ∀ p, applyAll (sequenceStep s.labels) p (directives s) =
      applyAll (sequenceStep s.labels) p (directives t)) :
    (t.arrange settings).map (·.performance) = (s.arrange settings).map (·.performance.withScore t) ∧
      ∀ a b, s.arrange settings = .ok a → t.arrange settings = .ok b → ∃ p front back,
        a.findings = front ++ (applyAll (directStep settings s.labels) p (directives s)).2 ++ back ∧
        b.findings = front ++ (applyAll (directStep settings s.labels) p (directives t)).2 ++ back := by
  have hsame : t.labels = s.labels := congrArg Prod.fst hlabels.symm
  rw [arrange_eq, arrange_eq, plain_of_bare_eq hbare]
  cases hp : s.plain settings with
  | error e => exact ⟨rfl, fun a b ha => by cases ha⟩
  | ok p =>
    have hscore : t.bare = p.score.bare := by rw [hbare, plain_score hp]
    have hdirect' : applyAll (directStep settings t.labels) (p.withScore t) (directives t) =
        ((s.direct settings p).withScore t, (applyAll (directStep settings s.labels) p (directives t)).2) := by
      rw [hsame, applyAll_withScore (fun _ _ _ _ h => directStep_score h)
        (fun p g d ht => directStep_withScore ht settings s.labels g d) hscore, ← hdirect]
      rfl
    have hdirectScore : t.bare = (s.direct settings p).score.bare := by
      rw [(direct_score hp).1, hbare]
    have hsequences' : applyAll (sequenceStep t.labels) (t.direct settings (p.withScore t)) (directives t) =
        ((s.arranged settings p).withScore t,
          (applyAll (sequenceStep s.labels) (s.direct settings p) (directives s)).2) := by
      rw [direct, hdirect', hsame, applyAll_withScore (fun _ _ _ _ h => sequenceStep_score h)
        (fun p g d ht => sequenceStep_withScore ht s.labels g d) hdirectScore, ← hsequences]
      rfl
    have hperformance : t.arranged settings (p.withScore t) = (s.arranged settings p).withScore t :=
      congrArg Prod.fst hsequences'
    have hoverflows : t.overflows settings (p.withScore t) = s.overflows settings p :=
      congrArg (·.2.any (·.2.isOverflow)) hsequences'
    simp only [Except.map, Except.bind, hoverflows, hperformance]
    cases s.overflows settings p with
    | true => exact ⟨rfl, fun a b ha => by cases ha⟩
    | false =>
      refine ⟨rfl, fun a b ha hb => ?_⟩
      obtain rfl := Except.ok.inj ha
      obtain rfl := Except.ok.inj hb
      refine ⟨p, _, _, rfl, ?_⟩
      simp only [findings]
      rw [hdirect', hsequences', hlabels]

section Stages

variable {κ : Type} [DecidableEq κ] {kind : Directive → κ} (h : s.IsInterleaved kind t)

include h

/-- A stage whose directives are all of one kind sees no difference. -/
theorem applyAll_of_isInterleaved {σ : Type} {step : σ → Gongan → Directive → Except DirectiveFault σ} (stage : Stage)
    (k : κ) (hkind : ∀ d : Directive, d.stage = stage → kind d = k) (hbare : ∀ s g d, step s g.bare d = step s g d)
    (hignored : ∀ s g d, d.stage ≠ stage → step s g d = .ok s) (start : σ) :
    applyAll step start (directives s) = applyAll step start (directives t) := by
  have hkeep (s : σ) (g : Gongan) (d : Directive) (hd : decide (kind d = k) = false) : step s g d = .ok s :=
    hignored s g d fun hstage => of_decide_eq_false hd (hkind d hstage)
  have hfilter := filter_bareDirectives h k
  rw [← applyAll_bare hbare, ← applyAll_bare hbare start (directives t)]
  change applyAll step start (bareDirectives s) = applyAll step start (bareDirectives t)
  rw [← applyAll_filter_of_ignored hkeep, ← applyAll_filter_of_ignored hkeep start (bareDirectives t), hfilter]

theorem applyAll_labelStep_of_isInterleaved (k : κ) (hkind : ∀ d : Directive, d.stage = .labels → kind d = k) :
    applyAll labelStep .empty (directives s) = applyAll labelStep .empty (directives t) :=
  applyAll_of_isInterleaved h .labels k hkind (fun _ _ d => by cases d <;> rfl)
    (fun labels g _ hd => labelStep_of_stage_ne hd labels g) .empty

theorem applyAll_sequenceStep_of_isInterleaved (k : κ) (hkind : ∀ d : Directive, d.stage = .sequences → kind d = k)
    (labels : Labels) (p : Performance) :
    applyAll (sequenceStep labels) p (directives s) = applyAll (sequenceStep labels) p (directives t) :=
  applyAll_of_isInterleaved h .sequences k hkind (fun _ _ d => by cases d <;> rfl)
    (fun p g _ hd => sequenceStep_of_stage_ne hd labels p g) p

end Stages

/-- How directives of different kinds are interleaved makes no difference to what is set up, and only to the order in
which faults are reported. If only labels, sequences and the others as one kind are interleaved in another way, it makes
no difference to that order either. -/
theorem arrange_interleaved (s t : Score) (settings : Settings) :
    (s.IsInterleaved Directive.kind t →
      (t.arrange settings).map (·.performance) = (s.arrange settings).map (·.performance.withScore t) ∧
        ∀ a b, s.arrange settings = .ok a → t.arrange settings = .ok b → b.findings.Perm a.findings) ∧
    (s.IsInterleaved Directive.stage t →
      (t.arrange settings).map (·.performance) = (s.arrange settings).map (·.performance.withScore t) ∧
        ∀ a b, s.arrange settings = .ok a → t.arrange settings = .ok b → b.findings = a.findings) := by
  have hbare (ds : List (Gongan × Directive)) (p : Performance) :
      applyAll (directStep settings s.labels) p (ds.map fun x => (x.1.bare, x.2)) =
        applyAll (directStep settings s.labels) p ds :=
    applyAll_bare (fun _ _ d => by cases d <;> rfl) p ds
  constructor
  · intro h
    have hlabels := applyAll_labelStep_of_isInterleaved h .label fun d hd => by
      cases d with
      | label name beat => rfl
      | _ => cases hd
    have hsequences := applyAll_sequenceStep_of_isInterleaved h .sequence (fun d hd => by
      cases d with
      | «sequence» names => rfl
      | _ => cases hd) s.labels
    have hdirect := applyAll_directStep_of_filter_eq (filter_bareDirectives h) settings s.labels
    simp only [bareDirectives, hbare] at hdirect
    obtain ⟨hperformance, hfindings⟩ := arrange_of_stages (bare_eq h) hlabels (fun p => (hdirect p).1) hsequences
    refine ⟨hperformance, fun a b ha hb => ?_⟩
    obtain ⟨p, front, back, hs, ht⟩ := hfindings a b ha hb
    rw [hs, ht]
    exact ((hdirect p).2.symm.append_left front).append_right back
  · intro h
    have hlabels := applyAll_labelStep_of_isInterleaved h .labels fun _ hd => hd
    have hsequences := applyAll_sequenceStep_of_isInterleaved h .sequences (fun _ hd => hd) s.labels
    have hdirect := applyAll_of_isInterleaved h .direct .direct (fun _ hd => hd)
      (fun _ _ d => by cases d <;> rfl) fun p g _ hd => directStep_of_stage_ne hd settings s.labels p g
    obtain ⟨hperformance, hfindings⟩ :=
      arrange_of_stages (bare_eq h) hlabels (fun p => congrArg Prod.fst (hdirect p)) hsequences
    refine ⟨hperformance, fun a b ha hb => ?_⟩
    obtain ⟨p, front, back, hs, ht⟩ := hfindings a b ha hb
    rw [hs, ht, hdirect]

/-- A gongan with faults in a label, a loop and a goto. The goto may come first, and so may the sequence. -/
theorem arrange_interleaved_of_faulty :
    let score (directives : List Directive) : Score := {
      title? := none
      gongans := #[{ id := 1, beats := [0], directives }]
      beats := #[{
        id := 0, gongan := 1, index := 1, duration := 1, measures := .empty, prev? := none, next? := none }] }
    let s := score [.label "A" 1, .loop 2, .loop 0, .goto "B" none [] none, .sequence ["A", "A"], .label "A" 2]
    let t := score [.goto "B" none [] none, .sequence ["A", "A"], .loop 2, .label "A" 1, .label "A" 2, .loop 0]
    let u := score [.sequence ["A", "A"], .loop 2, .loop 0, .label "A" 1, .goto "B" none [] none, .label "A" 2]
    s.IsInterleaved Directive.kind t ∧ s.IsInterleaved Directive.stage u ∧
      ∃ a b c, s.arrange {} = .ok a ∧ t.arrange {} = .ok b ∧ u.arrange {} = .ok c ∧ a.findings.length = 3 ∧
        b.performance = a.performance.withScore t ∧ b.findings.Perm a.findings ∧
        c.performance = a.performance.withScore u ∧ c.findings = a.findings := by
  intro score s t u
  have hkind : s.IsInterleaved Directive.kind t := by
    intro k
    cases k <;> simp [only, s, t, score, Directive.kind]
  have hstage : s.IsInterleaved Directive.stage u := by
    intro k
    cases k <;> simp [only, s, u, score, Directive.stage]
  have hrun : (s.arrange {}).toOption.any (·.findings.length = 3) := by decide +kernel
  obtain ⟨a, ha, hlength⟩ := (Option.any_eq_true _ _).1 hrun
  rw [toOption_eq_some_iff] at ha
  obtain ⟨hperformance, hfindings⟩ := (arrange_interleaved s t {}).1 hkind
  obtain ⟨hperformance', hfindings'⟩ := (arrange_interleaved s u {}).2 hstage
  rw [ha] at hperformance hperformance'
  obtain ⟨b, hb, hsame⟩ := map_eq_ok_iff.1 hperformance
  obtain ⟨c, hc, hsame'⟩ := map_eq_ok_iff.1 hperformance'
  exact ⟨hkind, hstage, a, b, c, ha, hb, hc, of_decide_eq_true hlength, hsame, hfindings a b ha hb, hsame',
    hfindings' a c ha hc⟩

end Score

end Gamelan
