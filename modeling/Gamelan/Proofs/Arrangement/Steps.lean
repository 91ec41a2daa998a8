import Gamelan.Arrangement
import Gamelan.Proofs.Score.Places

namespace Gamelan

namespace Arrangement

/-- What every accepted directive preserves holds after all directives. -/
theorem applyAll_invariant {σ : Type} {I : σ → Prop} {step : σ → Gongan → Directive → Except DirectiveFault σ}
    (ds : List (Gongan × Directive)) (hstep : ∀ s g d t, (g, d) ∈ ds → I s → step s g d = .ok t → I t) {s : σ}
    (hs : I s) : I (applyAll step s ds).1 := by
  induction ds generalizing s with
  | nil => exact hs
  | cons head rest ih =>
    obtain ⟨g, d⟩ := head
    rw [applyAll]
    cases h : step s g d with
    | error fault => exact ih (fun s g d t hd => hstep s g d t (.tail _ hd)) hs
    | ok t => exact ih (fun s g d t hd => hstep s g d t (.tail _ hd)) (hstep s g d t (.head _) hs h)

theorem resolve_eq_ok_iff {labels : Labels} {name : String} {b : BeatId} :
    resolve labels name = .ok b ↔ labels.get? name = some b := by
  rw [resolve]
  cases labels.get? name <;> simp

variable {labels : Labels} {p q : Performance} {g : Gongan}

theorem mapM_resolve_eq_ok_iff {names : List String} {beats : List BeatId} :
    names.mapM (resolve labels) = .ok beats ↔ names.map labels.get? = beats.map some := by
  induction names generalizing beats with
  | nil => cases beats <;> simp [pure, Except.pure]
  | cons name names ih =>
    rw [List.mapM_cons, bind_eq_ok_iff]
    simp only [resolve_eq_ok_iff, bind_eq_ok_iff, ih]
    cases beats with
    | nil => simp [pure, Except.pure]
    | cons b beats =>
      simp only [List.map_cons, List.cons.injEq]
      constructor
      · rintro ⟨c, hc, cs, hcs, heq⟩
        obtain ⟨rfl, rfl⟩ := List.cons.inj (Except.ok.inj heq)
        exact ⟨hc, hcs⟩
      · rintro ⟨hb, hbeats⟩
        exact ⟨b, hb, beats, hbeats, rfl⟩

/-- A goto is accepted if its label and its beat exist and its passes occur within its cycle. -/
theorem addGoto_eq_ok_iff {label : String} {fromBeat? : Option Nat} {passes : List UInt32}
    {cycle? : Option UInt32} :
    addGoto labels p g label fromBeat? passes cycle? = .ok q ↔
      ∃ target b, labels.get? label = some target ∧ g.beatAt? (fromBeat?.getD g.beats.length) = some b ∧
        cycle? ≠ some 0 ∧ (∀ n ∈ passes, n ≠ 0 ∧ n ≤ cycle?.getD Jump.defaultCycle) ∧
        q = p.addGoto b target passes cycle? := by
  rw [addGoto, bind_eq_ok_iff]
  simp only [resolve_eq_ok_iff]
  constructor
  · rintro ⟨target, htarget, h⟩
    cases hb : g.beatAt? (fromBeat?.getD g.beats.length) with
    | none => simp [hb] at h
    | some b =>
      by_cases hcycle : cycle? = some 0
      · simp [hb, hcycle] at h
      · cases hpass : passes.find? fun n => n == 0 || cycle?.getD Jump.defaultCycle < n with
        | some n => simp [hb, hcycle, hpass] at h
        | none =>
          simp only [hb, hcycle, hpass, if_false, Except.ok.injEq] at h
          refine ⟨target, b, htarget, rfl, hcycle, ?_, h.symm⟩
          intro n hn
          simpa using List.find?_eq_none.1 hpass n hn
  · rintro ⟨target, b, htarget, hb, hcycle, hpasses, rfl⟩
    refine ⟨target, htarget, ?_⟩
    have hpass : (passes.find? fun n => n == 0 || cycle?.getD Jump.defaultCycle < n) = none := by
      apply List.find?_eq_none.2
      intro n hn
      simpa using hpasses n hn
    simp [hb, hcycle, hpass]

/-- A loop is accepted if it plays the gongan at all and the gongan has none yet. -/
theorem addLoop_eq_ok_iff {count : UInt32} :
    addLoop p g count = .ok q ↔
      count ≠ 0 ∧ p.hasLoop g.id = false ∧ q = p.setLoop g.id (.ofCount g.lastBeat g.firstBeat count) := by
  rw [addLoop]
  by_cases hcount : count = 0
  · simp [hcount]
  · cases hloop : p.hasLoop g.id
    · simp [hcount, eq_comm]
    · simp [hcount]

/-- A ramp is accepted if it lies within its gongan and can be made. -/
theorem addRamp_eq_ok_iff {quantity : Quantity} {target : Int32} {extent : Extent} {positions : List Position} :
    addRamp p g quantity target extent positions = .ok q ↔
      ∃ b r, g.beatAt? extent.firstBeat = some b ∧
        (extent.firstBeat : Int) - 1 + extent.beatCount.toInt ≤ g.beats.length ∧
        Ramp.make quantity target extent.beatCount = .ok r ∧
        q = p.addRamp quantity b { r with positions, passes := extent.passes, iterations := extent.iterations } := by
  rw [addRamp]
  cases hb : g.beatAt? extent.firstBeat with
  | none => simp
  | some b =>
    by_cases hend : (g.beats.length : Int) < extent.firstBeat - 1 + extent.beatCount.toInt
    · simp [hend, Int.not_le.2 hend]
    · cases hr : Ramp.make quantity target extent.beatCount with
      | error fault => simp [hend]
      | ok r => simp [hend, Int.not_lt.1 hend, eq_comm]

/-- The first jump of a sequence takes the pass after all passes taken at its beat, if it can be counted and the cycle
has it. -/
theorem links_cons_cons (p : Performance) (taken : SortedMap BeatId UInt32) (a b : BeatId) (rest : List BeatId) :
    links p taken (a :: b :: rest) =
      let fromBeat := p.score.lastBeatOf a
      let jump := p.jump fromBeat
      match successor? ((taken.get? fromBeat).getD jump.maxPass) with
      | none => .error .overflow
      | some pass =>
        if jump.counter.cycle < pass then
          .error (.sequencePass pass (p.score.fullId fromBeat) jump.counter.cycle)
        else (links p (taken.insert fromBeat pass) (b :: rest)).map (⟨fromBeat, pass, b⟩ :: ·) := by
  rw [links]
  simp only
  cases successor? ((taken.get? (p.score.lastBeatOf a)).getD (p.jump (p.score.lastBeatOf a)).maxPass) with
  | none => rfl
  | some pass =>
    simp only
    split
    · rfl
    · cases links p _ (b :: rest) <;> rfl

/-- The last pass that is taken at a beat. -/
def lastPass (p : Performance) (taken : SortedMap BeatId UInt32) (e : BeatId) : UInt32 :=
  (taken.get? e).getD (p.jump e).maxPass

theorem links_cons_cons_eq_ok_iff {taken : SortedMap BeatId UInt32} {a b : BeatId} {rest : List BeatId}
    {ls : List Link} :
    links p taken (a :: b :: rest) = .ok ls ↔
      ∃ l more, l.fromBeat = p.score.lastBeatOf a ∧ l.toBeat = b ∧
        l.pass.toNat = (lastPass p taken l.fromBeat).toNat + 1 ∧ l.pass ≤ (p.jump l.fromBeat).counter.cycle ∧
        links p (taken.insert l.fromBeat l.pass) (b :: rest) = .ok more ∧ ls = l :: more := by
  rw [links_cons_cons]
  simp only
  constructor
  · intro h
    split at h
    · cases h
    next pass hpass =>
      split at h
      · cases h
      next hcycle =>
        obtain ⟨more, hmore, hls⟩ := map_eq_ok_iff.1 h
        exact ⟨⟨p.score.lastBeatOf a, pass, b⟩, more, rfl, rfl, successor?_eq_some_iff.1 hpass,
          UInt32.not_lt.1 hcycle, hmore, hls.symm⟩
  · rintro ⟨⟨e, n, t⟩, more, hfrom, rfl, hpass, hcycle, hmore, rfl⟩
    simp only at hfrom hpass hcycle hmore
    subst hfrom
    rw [lastPass] at hpass
    simp only [successor?_eq_some_iff.2 hpass]
    rw [if_neg (UInt32.not_lt.2 hcycle), hmore]
    rfl

/-- A sequence is accepted as a whole, if its labels exist and all its jumps find a pass. -/
theorem addSequence_eq_ok_iff {names : List String} :
    addSequence labels p names = .ok q ↔
      ∃ beats ls, names.mapM (resolve labels) = .ok beats ∧ links p .empty beats = .ok ls ∧
        q = ls.foldl (fun p l => p.modifyJump l.fromBeat (·.set (.pass l.pass) (some l.toBeat))) p := by
  rw [addSequence, bind_eq_ok_iff]
  constructor
  · rintro ⟨beats, hbeats, h⟩
    obtain ⟨ls, hls, h⟩ := bind_eq_ok_iff.1 h
    exact ⟨beats, ls, hbeats, hls, (Except.ok.inj h).symm⟩
  · rintro ⟨beats, ls, hbeats, hls, rfl⟩
    exact ⟨beats, hbeats, bind_eq_ok_iff.2 ⟨ls, hls, rfl⟩⟩

end Arrangement

/-- The labels of a score and their beats. -/
def Score.labels (s : Score) : Arrangement.Labels :=
  (Arrangement.applyAll Arrangement.labelStep .empty (Arrangement.directives s)).1

/-- The performance of a score whose directives are all left out. -/
def Score.plain (s : Score) (settings : Settings) : Except Error Performance :=
  (Performance.ofScore s settings).map ((List.range s.beats.size).foldl Performance.createJump)

/-- The performance that the direct directives set up. -/
def Score.direct (s : Score) (settings : Settings) (p : Performance) : Performance :=
  (Arrangement.applyAll (Arrangement.directStep settings s.labels) p (Arrangement.directives s)).1

/-- The performance that all directives set up, the sequences after the others. -/
def Score.arranged (s : Score) (settings : Settings) (p : Performance) : Performance :=
  (Arrangement.applyAll (Arrangement.sequenceStep s.labels) (s.direct settings p) (Arrangement.directives s)).1

/-- Whether a sequence counts beyond the last pass. -/
def Score.overflows (s : Score) (settings : Settings) (p : Performance) : Bool :=
  (Arrangement.applyAll (Arrangement.sequenceStep s.labels) (s.direct settings p) (Arrangement.directives s)).2.any
    (·.2.isOverflow)

/-- What is reported, stage by stage. -/
def Score.findings (s : Score) (settings : Settings) (p : Performance) : List Arrangement.Finding :=
  (Arrangement.applyAll Arrangement.labelStep .empty (Arrangement.directives s)).2 ++
    (Arrangement.applyAll (Arrangement.directStep settings s.labels) p (Arrangement.directives s)).2 ++
      (Arrangement.applyAll (Arrangement.sequenceStep s.labels) (s.direct settings p) (Arrangement.directives s)).2

namespace Score

variable {s : Score} {settings : Settings} {a : Arrangement} {p : Performance}

/-- An arrangement fails where the plain performance does, or where a sequence counts beyond the last pass. -/
theorem arrange_eq (s : Score) (settings : Settings) : s.arrange settings = (s.plain settings).bind fun p =>
    if s.overflows settings p then .error .overflow else .ok ⟨s.arranged settings p, s.findings settings p⟩ := by
  rw [arrange, plain]
  cases hp : Performance.ofScore s settings with
  | error e => rfl
  | ok q =>
    change (if s.overflows settings ((List.range s.beats.size).foldl Performance.createJump q) then _ else _) =
      if s.overflows settings ((List.range s.beats.size).foldl Performance.createJump q) then _ else _
    split <;> rfl

theorem arrange_eq_ok_iff : s.arrange settings = .ok a ↔ ∃ p, s.plain settings = .ok p ∧
    a.performance = s.arranged settings p ∧ a.findings = s.findings settings p ∧ s.overflows settings p = false := by
  obtain ⟨performance, findings⟩ := a
  rw [arrange_eq]
  cases s.plain settings with
  | error e => simp [Except.bind]
  | ok p => cases h : s.overflows settings p <;> simp [Except.bind, h, @eq_comm _ performance, @eq_comm _ findings]

theorem arrange_performance (h : s.arrange settings = .ok a) :
    ∃ p, s.plain settings = .ok p ∧ a.performance = s.arranged settings p := by
  obtain ⟨p, hp, ha, -⟩ := arrange_eq_ok_iff.1 h
  exact ⟨p, hp, ha⟩

theorem exists_arrange (hp : s.plain settings = .ok p) (h : s.overflows settings p = false) :
    ∃ a, s.arrange settings = .ok a ∧ a.performance = s.arranged settings p :=
  ⟨⟨s.arranged settings p, s.findings settings p⟩, arrange_eq_ok_iff.2 ⟨p, hp, rfl, rfl, h⟩, rfl⟩

theorem arrange_eq_overflow_iff (hp : s.plain settings = .ok p) :
    s.arrange settings = .error .overflow ↔ s.overflows settings p = true := by
  rw [arrange_eq, hp]
  cases h : s.overflows settings p <;> simp [Except.bind, h]

end Score

/-- What the computation from a manuscript to an arrangement shows holds of a score and its arrangement. -/
theorem Manuscript.exists_arrangement {m : Manuscript} {settings : Settings} {P : Score → Arrangement → Prop}
    [∀ s a, Decidable (P s a)]
    (h : (m.toScore.toOption.bind fun s => (s.arrange settings).toOption.map fun a => decide (P s a)) = some true) :
    ∃ s a, m.toScore = .ok s ∧ s.arrange settings = .ok a ∧ P s a := by
  obtain ⟨s, hs, hrest⟩ := Option.bind_eq_some_iff.1 h
  obtain ⟨a, ha, hP⟩ := Option.map_eq_some_iff.1 hrest
  exact ⟨s, a, toOption_eq_some_iff.1 hs, toOption_eq_some_iff.1 ha, of_decide_eq_true hP⟩

end Gamelan
