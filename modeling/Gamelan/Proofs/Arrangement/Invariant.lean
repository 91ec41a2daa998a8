import Gamelan.Proofs.Arrangement.Steps
import Gamelan.Proofs.Performance.Jumps
import Gamelan.Proofs.Ramp.Progress

namespace Gamelan

/-- A counter that has a cycle to go round in and has not begun to count. -/
structure Counter.IsFresh (c : Counter) : Prop where
  cycle : 0 < c.cycle
  value : c.value = 0

@[simp] theorem Jump.counter_set (j : Jump) (key : PassKey) (target : Target) :
    (j.set key target).counter = j.counter := by
  cases key <;> rfl

theorem Jump.counter_foldl_set (j : Jump) (passes : List UInt32) (target : Target) :
    (passes.foldl (fun j n => j.set (.pass n) target) j).counter = j.counter := by
  induction passes generalizing j with
  | nil => rfl
  | cons n passes ih => rw [List.foldl_cons, ih, Jump.counter_set]

/-- Where a goto leads is set on the passes that it lists, or on all others if it lists none. The counter stays. -/
theorem Jump.counter_setAll (j : Jump) (passes : List UInt32) (target : Target) :
    (if passes.isEmpty then j.set .otherwise target
      else passes.foldl (fun j n => j.set (.pass n) target) j).counter = j.counter := by
  split
  · exact Jump.counter_set _ _ _
  · exact Jump.counter_foldl_set _ _ _

theorem Ramp.eq_of_make {quantity : Quantity} {target length : Int32} {r : Ramp}
    (h : Ramp.make quantity target length = .ok r) : r = { quantity, target, length := length.toUInt32 } := by
  rw [Ramp.make] at h
  split at h
  · cases h
  · split at h
    · cases h
    · exact (Except.ok.inj h).symm

/-- Only a ramp with a target in range and a length that is a count of beats is made. -/
theorem Ramp.isSound_of_make {quantity : Quantity} {target length : Int32} {r : Ramp}
    (h : Ramp.make quantity target length = .ok r) : r.IsSound quantity := by
  obtain rfl := eq_of_make h
  rw [Ramp.make] at h
  split at h
  · cases h
  next hlength =>
    split at h
    · cases h
    next htarget =>
      refine ⟨by simpa using htarget, ?_, nofun⟩
      have hlt := Int32.toInt_lt length
      have htoNat : length.toUInt32.toNat = length.toInt.toNat :=
        Int32.toNat_toUInt32_of_le (Int32.not_lt.1 hlength)
      rw [htoNat]
      omega

/-- A ramp as a directive sets it up: it is sound and has not begun, and a ramp of the tempo is for all positions. -/
structure Ramp.IsSetUp (quantity : Quantity) (r : Ramp) : Prop where
  positions : quantity = .tempo → r.positions = []
  status : r.status? = none
  sound : r.IsSound quantity

theorem Ramp.isSetUp_of_make {quantity : Quantity} {target length : Int32} {r : Ramp}
    (h : Ramp.make quantity target length = .ok r) {positions : List Position} (passes iterations : List UInt32)
    (hpositions : quantity = .tempo → positions = []) :
    ({ r with positions, passes, iterations } : Ramp).IsSetUp quantity := by
  have hsound := isSound_of_make h
  have hstatus : r.status? = none := congrArg (·.status?) (eq_of_make h)
  exact ⟨hpositions, hstatus, hsound.target, hsound.length, hsound.status⟩

namespace Arrangement

/-- An accepted direct directive changes one jump, sets up one loop or adds one ramp, and begins to count nothing. -/
theorem directStep_cases {settings : Settings} {labels : Labels} {p q : Performance} {g : Gongan} {d : Directive}
    (h : directStep settings labels p g d = .ok q) :
    q = p ∨ (∃ b f, (∀ j : Jump, j.counter.IsFresh → (f j).counter.IsFresh) ∧ q = p.modifyJump b f) ∨
      (∃ count, count ≠ 0 ∧ q = p.setLoop g.id (.ofCount g.lastBeat g.firstBeat count)) ∨
      ∃ quantity b r, r.IsSetUp quantity ∧ q = p.addRamp quantity b r := by
  cases d with
  | label name beat => exact .inl (Except.ok.inj h).symm
  | «sequence» names => exact .inl (Except.ok.inj h).symm
  | goto label fromBeat? passes cycle? =>
    obtain ⟨target, b, -, -, hcycle, -, rfl⟩ := addGoto_eq_ok_iff.1 h
    refine .inr (.inl ⟨b, _, fun j hj => ?_, rfl⟩)
    have hcounter := j.counter_setAll passes (some target)
    cases cycle? with
    | none => exact hcounter ▸ hj
    | some cycle =>
      exact ⟨UInt32.pos_iff_ne_zero.2 fun hzero => hcycle (congrArg some hzero),
        (congrArg (·.value) hcounter).trans hj.value⟩
  | loop count =>
    obtain ⟨hcount, -, rfl⟩ := addLoop_eq_ok_iff.1 h
    exact .inr (.inr (.inl ⟨_, hcount, rfl⟩))
  | tempo value extent =>
    obtain ⟨b, r, -, -, hr, rfl⟩ := addRamp_eq_ok_iff.1 h
    exact .inr (.inr (.inr ⟨.tempo, b, _, Ramp.isSetUp_of_make hr _ _ fun _ => rfl, rfl⟩))
  | dynamics mark extent positions =>
    rw [directStep] at h
    cases hmark : settings.velocityFor? mark with
    | none => simp [hmark] at h
    | some velocity =>
      simp only [hmark] at h
      obtain ⟨b, r, -, -, hr, rfl⟩ := addRamp_eq_ok_iff.1 h
      exact .inr (.inr (.inr ⟨.dynamics, b, _, Ramp.isSetUp_of_make hr _ _ nofun, rfl⟩))

/-- An accepted sequence changes jumps only. -/
theorem sequenceStep_invariant {I : Performance → Prop} {labels : Labels} {p q : Performance} {g : Gongan}
    {d : Directive}
    (hjump : ∀ p b f, (∀ j : Jump, j.counter.IsFresh → (f j).counter.IsFresh) → I p → I (p.modifyJump b f)) (hp : I p)
    (h : sequenceStep labels p g d = .ok q) : I q := by
  cases d with
  | «sequence» names =>
    obtain ⟨beats, ls, -, -, rfl⟩ := addSequence_eq_ok_iff.1 h
    clear h
    induction ls generalizing p with
    | nil => exact hp
    | cons l ls ih =>
      refine ih (hjump p _ _ (fun j hj => ?_) hp)
      rw [Jump.counter_set]
      exact hj
  | _ => exact Except.ok.inj h ▸ hp

theorem mem_gongans_of_mem_directives {s : Score} {g : Gongan} {d : Directive} (h : (g, d) ∈ directives s) :
    g ∈ s.gongans.toList := by
  obtain ⟨g', hg', hd⟩ := List.mem_flatMap.1 h
  obtain ⟨d', -, heq⟩ := List.mem_map.1 hd
  cases heq
  exact hg'

end Arrangement

open Arrangement

/-- What holds of the plain performance and is kept by every way to set something up holds of an arrangement. -/
theorem Score.arrange_invariant {I : Performance → Prop} {s : Score} {settings : Settings} {a : Arrangement}
    (h : s.arrange settings = .ok a) (hplain : ∀ p, s.plain settings = .ok p → I p)
    (hjump : ∀ p b f, (∀ j : Jump, j.counter.IsFresh → (f j).counter.IsFresh) → I p → I (p.modifyJump b f))
    (hloop : ∀ p g count, g ∈ s.gongans.toList → count ≠ 0 → I p →
      I (p.setLoop g.id (.ofCount g.lastBeat g.firstBeat count)))
    (hramp : ∀ p quantity b r, r.IsSetUp quantity → I p → I (p.addRamp quantity b r)) :
    I a.performance := by
  obtain ⟨p, hp, ha⟩ := Score.arrange_performance h
  rw [ha]
  refine applyAll_invariant _ (fun q g d r _ hq hr => sequenceStep_invariant hjump hq hr) ?_
  refine applyAll_invariant _ (fun q g d r hd hq hr => ?_) (hplain p hp)
  rcases directStep_cases hr with rfl | ⟨b, f, hf, rfl⟩ | ⟨count, hcount, rfl⟩ |
    ⟨quantity, b, r, hset, rfl⟩
  · exact hq
  · exact hjump q b f hf hq
  · exact hloop q g count (mem_gongans_of_mem_directives hd) hcount hq
  · exact hramp q quantity b r hset hq

/-- Labels name beats of the score. -/
theorem Score.labels_lt {s : Score} (hs : s.IsPlaced) {name : String} {b : BeatId}
    (h : s.labels.get? name = some b) : b < s.beats.size := by
  refine applyAll_invariant (directives s) ?_ ?_ name b h
    (I := fun labels : Labels => ∀ name b, labels.get? name = some b → b < s.beats.size)
  · intro labels g d labels' hd hlabels hstep
    cases d with
    | label name number =>
      rw [labelStep, addLabel] at hstep
      cases hb : g.beatAt? number with
      | none => simp [hb] at hstep
      | some b =>
        simp only [hb] at hstep
        split at hstep
        · cases hstep
        · obtain rfl := Except.ok.inj hstep
          intro name' c hc
          rw [SortedMap.get?_insert] at hc
          split at hc
          · obtain rfl := Option.some.inj hc
            refine hs.lt_size_of_mem (mem_gongans_of_mem_directives hd) ?_
            cases number with
            | zero => cases hb
            | succ n => exact List.mem_of_getElem? hb
          · exact hlabels name' c hc
    | _ => exact Except.ok.inj hstep ▸ hlabels
  · intro name b hb
    cases hb

namespace Performance

theorem size_createJumps (bs : List BeatId) (p : Performance) :
    (bs.foldl createJump p).jumps.size = p.jumps.size := by
  induction bs generalizing p with
  | nil => rfl
  | cons b bs ih => rw [List.foldl_cons, ih, size_createJump]

theorem createJumps_eq (bs : List BeatId) (p : Performance) :
    bs.foldl createJump p = { p with jumps := (bs.foldl createJump p).jumps } := by
  induction bs generalizing p with
  | nil => rfl
  | cons b bs ih =>
    rw [List.foldl_cons, ih]
    rfl

theorem jump_createJumps (bs : List BeatId) (p : Performance) (b : BeatId) :
    (bs.foldl createJump p).jump b = p.jump b := by
  induction bs generalizing p with
  | nil => rfl
  | cons c bs ih =>
    rw [List.foldl_cons, ih]
    change (p.modifyJump c id).jump b = p.jump b
    rw [jump_modifyJump]
    split
    next hbc => rw [hbc.1]; rfl
    · rfl

/-- Setting up jumps sets up the listed ones and loses none. -/
theorem exists_jump_createJumps {bs : List BeatId} {p : Performance} {b : BeatId} (hb : b < p.jumps.size)
    (h : b ∈ bs ∨ ∃ j, p.jumps[b]? = some (some j)) : ∃ j, (bs.foldl createJump p).jumps[b]? = some (some j) := by
  induction bs generalizing p with
  | nil => simpa using h
  | cons c bs ih =>
    refine ih (by simpa using hb) ?_
    by_cases hbc : b = c
    · subst hbc
      exact .inr ⟨p.jump b, by rw [createJump, setJump, Array.getElem?_setIfInBounds_self_of_lt hb]⟩
    · rcases h with h | ⟨j, hj⟩
      · exact .inl ((List.mem_cons.1 h).resolve_left hbc)
      · exact .inr ⟨j, by rw [createJump, setJump, Array.getElem?_setIfInBounds_ne (Ne.symm hbc), hj]⟩

end Performance

/-- The plain performance starts from the defaults of the settings, which have to be in range. -/
theorem Score.plain_eq_ok_iff {s : Score} {settings : Settings} {p : Performance} :
    s.plain settings = .ok p ↔
      ∃ tempo dynamics, Schedule.ofDefault .tempo settings.defaultTempo = .ok tempo ∧
        Schedule.ofDefault .dynamics settings.defaultVelocity = .ok dynamics ∧
        p = (List.range s.beats.size).foldl Performance.createJump {
          score := s, tempo, dynamics, maxSteps := settings.maxSteps
          jumps := Array.replicate s.beats.size none } := by
  rw [plain, Performance.ofScore]
  cases Schedule.ofDefault .tempo settings.defaultTempo with
  | error fault => simp [Except.mapError, bind, Except.bind, Except.map]
  | ok tempo =>
    cases Schedule.ofDefault .dynamics settings.defaultVelocity with
    | error fault => simp [Except.mapError, bind, Except.bind, Except.map]
    | ok dynamics => simp [Except.mapError, bind, Except.bind, Except.map, pure, Except.pure, eq_comm]

theorem Score.plain_score {s : Score} {settings : Settings} {p : Performance} (hp : s.plain settings = .ok p) :
    p.score = s := by
  obtain ⟨tempo, dynamics, -, -, rfl⟩ := plain_eq_ok_iff.1 hp
  rw [Performance.createJumps_eq]

theorem Score.plain_loops {s : Score} {settings : Settings} {p : Performance} (hp : s.plain settings = .ok p) :
    p.loops = .empty := by
  obtain ⟨tempo, dynamics, -, -, rfl⟩ := plain_eq_ok_iff.1 hp
  rw [Performance.createJumps_eq]

theorem Score.plain_isComplete {s : Score} {settings : Settings} {p : Performance}
    (h : s.plain settings = .ok p) : p.IsComplete := by
  obtain ⟨tempo, dynamics, -, -, rfl⟩ := Score.plain_eq_ok_iff.1 h
  refine ⟨?_, ?_⟩
  · rw [Performance.size_createJumps, Performance.createJumps_eq]
    simp
  intro b hb
  rw [Performance.size_createJumps] at hb
  refine Performance.exists_jump_createJumps hb (.inl ?_)
  simpa using hb

theorem Score.plain_jump {s : Score} {settings : Settings} {p : Performance} (hp : s.plain settings = .ok p)
    (b : BeatId) : p.jump b = .straight (s.next? b) := by
  obtain ⟨tempo, dynamics, -, -, rfl⟩ := plain_eq_ok_iff.1 hp
  rw [Performance.jump_createJumps, Performance.jump, Performance.findJump?]
  simp only [Array.getElem?_replicate]
  split <;> rfl

theorem Score.arrange_score {s : Score} {settings : Settings} {a : Arrangement}
    (h : s.arrange settings = .ok a) :
    a.performance.score = s ∧ a.performance.maxSteps = settings.maxSteps := by
  refine Score.arrange_invariant h ?_ ?_ ?_ ?_ (I := fun p => p.score = s ∧ p.maxSteps = settings.maxSteps)
  · intro p hp
    obtain ⟨tempo, dynamics, -, -, rfl⟩ := Score.plain_eq_ok_iff.1 hp
    rw [Performance.createJumps_eq]
    exact ⟨rfl, rfl⟩
  · exact fun p b f _ hp => hp
  · exact fun p g count _ _ hp => hp
  · intro p quantity b r _ hp
    cases quantity <;> exact hp

theorem Score.arrange_isComplete {s : Score} {settings : Settings} {a : Arrangement}
    (h : s.arrange settings = .ok a) : a.performance.IsComplete := by
  refine Score.arrange_invariant h (fun p hp => Score.plain_isComplete hp) ?_ ?_ ?_
  · intro p b f _ hp
    exact hp.setJump b _
  · intro p g count _ _ hp
    exact hp
  · intro p quantity b r _ hp
    cases quantity <;> exact hp

end Gamelan
