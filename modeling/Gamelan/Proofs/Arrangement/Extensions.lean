import Gamelan.Proofs.Arrangement.Allocation

namespace Gamelan

namespace Arrangement

/-- A sequence that is accepted: the performance that it is added to, its labels and its jumps. -/
structure Extension where
  before : Performance
  names : List String
  links : List Link

/-- The accepted sequences among directives, in order. -/
def extensions (labels : Labels) : Performance → List (Gongan × Directive) → List Extension
  | _, [] => []
  | p, (_, d) :: rest =>
    match d with
    | .sequence names =>
      match (names.mapM (resolve labels)).bind (links p .empty) with
      | .ok ls => ⟨p, names, ls⟩ :: extensions labels (p.setLinks ls) rest
      | .error _ => extensions labels p rest
    | _ => extensions labels p rest

/-- A sequence adds a jump for each of its labels but the first, all of them on new passes, which are above those that
the beats have had before, and within their cycles. -/
structure Extension.IsNew (x : Extension) : Prop where
  count : x.links.length = x.names.length - 1
  targets : ∀ e n target, ((x.before.setLinks x.links).jump e).target? (.pass n) = some target ↔
    (x.before.jump e).target? (.pass n) = some target ∨
      ∃ l ∈ x.links, l.fromBeat = e ∧ l.pass = n ∧ target = some l.toBeat
  above : ∀ l ∈ x.links, ∀ n target, (x.before.jump l.fromBeat).target? (.pass n) = some target → n < l.pass
  increasing : x.links.Pairwise fun l l' => l.fromBeat = l'.fromBeat → l.pass < l'.pass
  inCycle : ∀ l ∈ x.links, 1 ≤ l.pass ∧ l.pass ≤ (x.before.jump l.fromBeat).counter.cycle

/-- Labels name beats of gongans that end within the performance. -/
def HasEnds (labels : Labels) (p : Performance) : Prop :=
  ∀ name b, labels.get? name = some b → p.score.lastBeatOf b < p.jumps.size

variable {labels : Labels} {p : Performance} {ls more : List Link}

theorem HasEnds.setLinks (h : HasEnds labels p) (ls : List Link) : HasEnds labels (p.setLinks ls) := by
  intro name b hb
  rw [p.score_setLinks, p.size_setLinks]
  exact h name b hb

/-- A sequence is accepted with its jumps, and every other directive leaves the performance as it is. -/
theorem extensions_cons_cases (labels : Labels) (p : Performance) (g : Gongan) (d : Directive)
    (rest : List (Gongan × Directive)) :
    (extensions labels p ((g, d) :: rest) = extensions labels p rest ∧
      (applyAll (sequenceStep labels) p ((g, d) :: rest)).1 = (applyAll (sequenceStep labels) p rest).1) ∨
    ∃ names beats ls, names.mapM (resolve labels) = .ok beats ∧ links p .empty beats = .ok ls ∧
      extensions labels p ((g, d) :: rest) = ⟨p, names, ls⟩ :: extensions labels (p.setLinks ls) rest ∧
      (applyAll (sequenceStep labels) p ((g, d) :: rest)).1 =
        (applyAll (sequenceStep labels) (p.setLinks ls) rest).1 := by
  cases d with
  | «sequence» names =>
    cases hbeats : names.mapM (resolve labels) with
    | error fault =>
      refine .inl ⟨by simp only [extensions, hbeats, Except.bind], ?_⟩
      simp only [applyAll, sequenceStep, addSequence, hbeats, bind, Except.bind]
    | ok beats =>
      cases hls : links p .empty beats with
      | error fault =>
        refine .inl ⟨by simp only [extensions, hbeats, hls, Except.bind], ?_⟩
        simp only [applyAll, sequenceStep, addSequence, hbeats, hls, bind, Except.bind]
      | ok ls =>
        refine .inr ⟨names, beats, ls, hbeats, hls, by simp only [extensions, hbeats, hls, Except.bind], ?_⟩
        have hstep : sequenceStep labels p g (.sequence names) = .ok (p.setLinks ls) :=
          addSequence_eq_ok_iff.2 ⟨beats, ls, hbeats, hls, rfl⟩
        rw [applyAll, hstep]
  | _ => exact .inl ⟨rfl, rfl⟩

/-- The accepted sequences are those that the last stage of an arrangement accepts. -/
theorem map_names_extensions (labels : Labels) (p : Performance) (ds : List (Gongan × Directive)) :
    (extensions labels p ds).map (fun x => Directive.sequence x.names) =
      (accepted (sequenceStep labels) p ds).filter Directive.isSequence := by
  induction ds generalizing p with
  | nil => rfl
  | cons head rest ih =>
    obtain ⟨g, d⟩ := head
    cases d with
    | «sequence» names =>
      rw [extensions, accepted, sequenceStep, addSequence]
      cases hbeats : names.mapM (resolve labels) with
      | error fault => exact ih p
      | ok beats =>
        simp only [bind, Except.bind]
        cases hls : links p .empty beats with
        | error fault => exact ih p
        | ok ls => exact congrArg (Directive.sequence names :: ·) (ih (p.setLinks ls))
    | _ => exact ih p

section Accepted

variable {names : List String} {beats : List BeatId} (hends : HasEnds labels p)
  (hbeats : names.mapM (resolve labels) = .ok beats) (hls : links p .empty beats = .ok ls)

include hls

theorem follows_maxPass : Follows (fun e => (p.jump e).maxPass) ls := follows_of_links hls

include hends hbeats

theorem fromBeat_lt {l : Link} (hl : l ∈ ls) : l.fromBeat < p.jumps.size := by
  obtain ⟨-, a, ha, hfrom⟩ := of_mem_links hls hl
  have hmem : some a ∈ names.map labels.get? := by
    rw [mapM_resolve_eq_ok_iff.1 hbeats]
    exact List.mem_map_of_mem ha
  obtain ⟨name, -, hname⟩ := List.mem_map.1 hmem
  rw [hfrom]
  exact hends name a hname

/-- A sequence takes new passes. -/
theorem isNew : Extension.IsNew ⟨p, names, ls⟩ := by
  have hfollows := follows_maxPass hls
  obtain ⟨habove, hincreasing⟩ := hfollows.increasing
  have hnew : ∀ l ∈ ls, ∀ n target, (p.jump l.fromBeat).target? (.pass n) = some target → n < l.pass :=
    fun l hl n target h => UInt32.lt_of_le_of_lt (Jump.maxPass_le_iff.1 (UInt32.le_refl _) n target h) (habove l hl)
  refine ⟨?_, ?_, hnew, hincreasing, fun l hl => ⟨hfollows.one_le hl, (of_mem_links hls hl).1⟩⟩
  · have hlength := congrArg List.length (mapM_resolve_eq_ok_iff.1 hbeats)
    simp only [List.length_map] at hlength
    rw [length_links hls, hlength]
  · refine Performance.target?_setLinks (fun l hl => fromBeat_lt hends hbeats hls hl) (fun l hl => ?_) ?_
    · refine Option.eq_none_iff_forall_ne_some.2 fun target htarget => ?_
      exact absurd (hnew l hl l.pass target htarget) (UInt32.lt_irrefl _)
    · exact hincreasing.imp fun h hfrom => UInt32.ne_of_lt (h hfrom)

end Accepted

theorem extensions_isNew (hends : HasEnds labels p) (ds : List (Gongan × Directive)) :
    ∀ x ∈ extensions labels p ds, x.IsNew := by
  induction ds generalizing p with
  | nil => nofun
  | cons head rest ih =>
    obtain ⟨g, d⟩ := head
    obtain ⟨hsame, -⟩ | ⟨names, beats, ls, hbeats, hls, hcons, -⟩ := extensions_cons_cases labels p g d rest
    · rw [hsame]
      exact ih hends
    · rw [hcons]
      exact List.forall_mem_cons.2 ⟨isNew hends hbeats hls, ih (hends.setLinks ls)⟩

/-- Sequences leave all that happens on other passes alone, and the counters, and they add jumps and remove none. -/
theorem jump_applyAll_sequenceStep (hends : HasEnds labels p) (ds : List (Gongan × Directive)) (e : BeatId) :
    (((applyAll (sequenceStep labels) p ds).1.jump e).otherwise? = (p.jump e).otherwise? ∧
      ((applyAll (sequenceStep labels) p ds).1.jump e).counter = (p.jump e).counter) ∧
    ∀ n target, (p.jump e).target? (.pass n) = some target →
      ((applyAll (sequenceStep labels) p ds).1.jump e).target? (.pass n) = some target := by
  induction ds generalizing p with
  | nil => exact ⟨⟨rfl, rfl⟩, fun n target h => h⟩
  | cons head rest ih =>
    obtain ⟨g, d⟩ := head
    obtain ⟨-, hall⟩ | ⟨names, beats, ls, hbeats, hls, -, hall⟩ := extensions_cons_cases labels p g d rest
    · rw [hall]
      exact ih hends
    · rw [hall]
      obtain ⟨⟨hotherwise, hcounter⟩, hkept⟩ := ih (hends.setLinks ls)
      obtain ⟨hotherwise', hcounter'⟩ := p.jump_setLinks ls e
      refine ⟨⟨hotherwise.trans hotherwise', hcounter.trans hcounter'⟩, fun n target h => ?_⟩
      exact hkept n target (((isNew hends hbeats hls).targets e n target).2 (.inl h))

section Overflow

variable {σ : Type} {step : σ → Gongan → Directive → Except DirectiveFault σ}

theorem isOverflow_iff {fault : DirectiveFault} : fault.isOverflow ↔ fault = .overflow := by
  cases fault <;> simp [DirectiveFault.isOverflow]

theorem exists_getElem?_cons {α : Type} {P : Nat → α → Prop} {x : α} {xs : List α} :
    (∃ i y, (x :: xs)[i]? = some y ∧ P i y) ↔ P 0 x ∨ ∃ i y, xs[i]? = some y ∧ P (i + 1) y := by
  constructor
  · rintro ⟨i, y, hy, h⟩
    cases i with
    | zero => exact .inl (Option.some.inj hy ▸ h)
    | succ i => exact .inr ⟨i, y, hy, h⟩
  · rintro (h | ⟨i, y, hy, h⟩)
    · exact ⟨0, x, rfl, h⟩
    · exact ⟨i + 1, y, hy, h⟩

/-- There is an overflow among the findings exactly if a directive overflows in its turn. -/
theorem any_isOverflow_iff (s : σ) (ds : List (Gongan × Directive)) :
    (applyAll step s ds).2.any (·.2.isOverflow) ↔
      ∃ (i : Nat) (x : Gongan × Directive), ds[i]? = some x ∧
        step (applyAll step s (ds.take i)).1 x.1 x.2 = .error .overflow := by
  induction ds generalizing s with
  | nil => simp [applyAll]
  | cons head rest ih =>
    obtain ⟨g, d⟩ := head
    refine Iff.trans ?_ exists_getElem?_cons.symm
    simp only [List.take_zero, List.take_succ_cons, applyAll]
    cases h : step s g d with
    | ok t => simp [ih]
    | error fault => simp [ih, isOverflow_iff]

theorem mapM_resolve_ne_overflow (labels : Labels) (names : List String) :
    names.mapM (resolve labels) ≠ .error .overflow := by
  induction names with
  | nil => simp [pure, Except.pure]
  | cons name names ih =>
    rw [List.mapM_cons, resolve]
    cases labels.get? name with
    | none => simp [bind, Except.bind]
    | some b =>
      cases hbeats : names.mapM (resolve labels) with
      | ok beats => simp [bind, Except.bind, pure, Except.pure]
      | error fault => simpa [hbeats, bind, Except.bind] using ih

/-- A sequence overflows if its labels exist and its jumps count beyond the last pass. -/
theorem sequenceStep_eq_overflow_iff {g : Gongan} {d : Directive} : sequenceStep labels p g d = .error .overflow ↔
    ∃ names beats, d = .sequence names ∧ names.mapM (resolve labels) = .ok beats ∧
      Overruns p (fun e => (p.jump e).maxPass) (exitBeats p.score beats) := by
  cases d with
  | «sequence» names =>
    rw [sequenceStep, addSequence]
    cases hbeats : names.mapM (resolve labels) with
    | error fault =>
      have hne := mapM_resolve_ne_overflow labels names
      simpa [hbeats, bind, Except.bind] using hne
    | ok beats =>
      have hoverruns : links p .empty beats = .error .overflow ↔
          Overruns p (fun e => (p.jump e).maxPass) (exitBeats p.score beats) := links_eq_overflow_iff
      simp only [Directive.sequence.injEq, hbeats, Except.ok.injEq, exists_and_left, exists_eq_left', ← hoverruns,
        bind, Except.bind]
      cases links p .empty beats <;> simp [pure, Except.pure]
  | _ => simp [sequenceStep]

end Overflow

end Arrangement

open Arrangement

namespace Score

variable {s : Score} {settings : Settings} {p : Performance}

theorem direct_score (hp : s.plain settings = .ok p) :
    (s.direct settings p).score = s ∧ (s.direct settings p).jumps.size = s.beats.size := by
  refine applyAll_invariant _ (I := fun q : Performance => q.score = s ∧ q.jumps.size = s.beats.size) ?_ ?_
  · rintro q g d r - ⟨hscore, hsize⟩ hr
    exact ⟨(directStep_score hr).trans hscore, (directStep_size hr).trans hsize⟩
  · exact ⟨plain_score hp, (plain_isComplete hp).1.trans (congrArg (·.beats.size) (plain_score hp))⟩

/-- Before the sequences are set up, labels name beats of gongans that end within the performance. -/
theorem direct_hasEnds (hs : s.IsPlaced) (hp : s.plain settings = .ok p) :
    HasEnds s.labels (s.direct settings p) := by
  obtain ⟨hscore, hsize⟩ := direct_score hp
  intro name b hb
  rw [hscore, hsize]
  exact (hs.beat_bounds (labels_lt hs hb)).2.2

/-- Whether a sequence with labels that exist has jumps that count beyond the last pass when its turn comes. -/
def CountsBeyond (s : Score) (settings : Settings) (p : Performance) : Prop :=
  ∃ (i : Nat) (g : Gongan) (names : List String) (beats : List BeatId),
    (directives s)[i]? = some (g, .sequence names) ∧ names.mapM (resolve s.labels) = .ok beats ∧
      let q := (applyAll (sequenceStep s.labels) (s.direct settings p) ((directives s).take i)).1
      Overruns q (fun e => (q.jump e).maxPass) (exitBeats s beats)

theorem overflows_iff (hp : s.plain settings = .ok p) :
    s.overflows settings p = true ↔ s.CountsBeyond settings p := by
  have hscore (i : Nat) :
      (applyAll (sequenceStep s.labels) (s.direct settings p) ((directives s).take i)).1.score = s :=
    applyAll_invariant _ (I := fun q : Performance => q.score = s)
      (fun q g d r _ hq hr => (sequenceStep_score hr).trans hq) (direct_score hp).1
  rw [overflows, any_isOverflow_iff, CountsBeyond]
  simp only [sequenceStep_eq_overflow_iff, hscore]
  constructor
  · rintro ⟨i, ⟨g, d⟩, hx, names, beats, rfl, hbeats, hover⟩
    exact ⟨i, g, names, beats, hx, hbeats, hover⟩
  · rintro ⟨i, g, names, beats, hx, hbeats, hover⟩
    exact ⟨i, (g, .sequence names), hx, names, beats, rfl, hbeats, hover⟩

/-- Sequences take new passes, and leave everything as it has been set up before them. Where one of them comes in its
turn to a jump that needs the pass after the last one that can be counted, there is no performance: the program stops. -/
theorem sequences_take_new_passes_iff {m : Manuscript} (hs : m.toScore = .ok s) (hp : s.plain settings = .ok p) :
    let before := s.direct settings p
    let sequences := extensions s.labels before (directives s)
    (s.CountsBeyond settings p → s.arrange settings = .error .overflow) ∧
    (¬ s.CountsBeyond settings p → ∃ a, s.arrange settings = .ok a ∧ a.performance = s.arranged settings p ∧
      sequences.map (fun x => Directive.sequence x.names) =
        (accepted (sequenceStep s.labels) before (directives s)).filter Directive.isSequence ∧
      (∀ x ∈ sequences, x.IsNew) ∧
      ∀ e,
        (∀ n target, (before.jump e).target? (.pass n) = some target →
          (a.performance.jump e).target? (.pass n) = some target) ∧
        (a.performance.jump e).otherwise? = (before.jump e).otherwise? ∧
        (a.performance.jump e).counter.cycle = (before.jump e).counter.cycle) := by
  intro before sequences
  have hends : HasEnds s.labels before := direct_hasEnds (Manuscript.toScore_isPlaced hs) hp
  have hiff := overflows_iff hp
  refine ⟨fun hover => (arrange_eq_overflow_iff hp).2 (hiff.2 hover), fun hnone => ?_⟩
  obtain ⟨a, ha, hperformance⟩ := exists_arrange hp (Bool.eq_false_iff.2 (mt hiff.1 hnone))
  refine ⟨a, ha, hperformance, map_names_extensions _ _ _, extensions_isNew hends _, fun e => ?_⟩
  rw [hperformance]
  obtain ⟨⟨hotherwise, hcounter⟩, hkept⟩ := jump_applyAll_sequenceStep hends (directives s) e
  exact ⟨hkept, hotherwise, congrArg (·.cycle) hcounter⟩

/-- A sequence that leaves a beat twice, on the two passes behind that of a goto. -/
theorem sequences_take_new_passes_behind_goto :
    let m : Manuscript := { gongans := [
      { directives := [.label "A" 1, .goto "B" none [1] (some 3)], beats := [{}] },
      { directives := [.label "B" 1], beats := [{}] },
      { directives := [.label "C" 1, .sequence ["A", "C", "A", "C"]], beats := [{}] }] }
    ∃ s a p, m.toScore = .ok s ∧ s.arrange {} = .ok a ∧ s.plain {} = .ok p ∧
      (extensions s.labels (s.direct {} p) (directives s)).length = 1 ∧
      (∀ x ∈ extensions s.labels (s.direct {} p) (directives s), x.IsNew) ∧
      ∀ n target, ((s.direct {} p).jump 0).target? (.pass n) = some target →
        (a.performance.jump 0).target? (.pass n) = some target := by
  intro m
  have harrangement : ∃ s a, m.toScore = .ok s ∧ s.arrange {} = .ok a ∧
      ((s.plain {}).toOption.any fun p => (extensions s.labels (s.direct {} p) (directives s)).length = 1) :=
    Manuscript.exists_arrangement (by decide +kernel)
  obtain ⟨s, a, hs, ha, hrun⟩ := harrangement
  obtain ⟨p, hp, hlength⟩ := (Option.any_eq_true _ _).1 hrun
  have hplain := toOption_eq_some_iff.1 hp
  obtain ⟨hover, hnew⟩ := sequences_take_new_passes_iff hs hplain
  obtain ⟨a', ha', -, -, hisNew, hkept⟩ := hnew fun h => by
    rw [ha] at hover
    cases hover h
  obtain rfl := Except.ok.inj (ha.symm.trans ha')
  exact ⟨s, a, p, hs, ha, hplain, of_decide_eq_true hlength, hisNew, (hkept 0).1⟩

/-- A goto takes the last pass that can be counted, and a sequence needs the one after it. -/
theorem sequences_overflow_behind_last_pass :
    let m : Manuscript := { gongans := [
      { directives := [.label "A" 1, .goto "B" none [1, 4294967295] (some 4294967295)], beats := [{}] },
      { directives := [.label "B" 1], beats := [{}] },
      { directives := [.label "C" 1, .sequence ["A", "C", "A", "C"]], beats := [{}] }] }
    ∃ s p, m.toScore = .ok s ∧ s.plain {} = .ok p ∧
      ((s.direct {} p).jump 0).target? (.pass 4294967295) = some (some 1) ∧ s.arrange {} = .error .overflow := by
  intro m
  have hrun : m.toScore.toOption.any fun s => (s.plain {}).toOption.any fun p =>
      ((s.direct {} p).jump 0).target? (.pass 4294967295) = some (some 1) ∧ s.overflows {} p = true := by
    decide +kernel
  obtain ⟨s, hs, hrun⟩ := (Option.any_eq_true _ _).1 hrun
  obtain ⟨p, hp, hrun⟩ := (Option.any_eq_true _ _).1 hrun
  obtain ⟨htarget, hover⟩ := of_decide_eq_true hrun
  have hplain := toOption_eq_some_iff.1 hp
  exact ⟨s, p, toOption_eq_some_iff.1 hs, hplain, htarget, (arrange_eq_overflow_iff hplain).2 hover⟩

end Score

end Gamelan
