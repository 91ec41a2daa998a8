import Gamelan.Proofs.Arrangement.Invariant
import Gamelan.Proofs.Performance.Restart

namespace Gamelan

namespace Schedule

/-- A schedule at its beginning: no ramp runs but the default. -/
structure IsFresh (s : Schedule) : Prop where
  nonempty : 0 < s.ramps.size
  reset : s.reset = s

theorem ofDefault_isFresh {quantity : Quantity} {value : Int32} {s : Schedule} (h : ofDefault quantity value = .ok s) :
    s.IsFresh := by
  obtain ⟨r, hr, h⟩ := bind_eq_ok_iff.1 h
  obtain rfl := Except.ok.inj h
  obtain rfl := Ramp.eq_of_make hr
  exact ⟨Nat.one_pos, by simp [reset, default, Ramp.clear, Ramp.start]⟩

theorem IsFresh.add {s : Schedule} (hs : s.IsFresh) (b : BeatId) {r : Ramp} (hr : r.status? = none) :
    (s.add b r).IsFresh := by
  have hclear : r.clear = r := by rw [Ramp.clear, ← hr]
  have hdefault : (s.add b r).default = s.default := by
    rw [default, default, Schedule.add, Array.getElem?_push, if_neg (Nat.ne_of_lt hs.nonempty)]
  have hramps : ((s.add b r).ramps.map Ramp.clear).modify 0 (·.start (s.add b r).default) = (s.add b r).ramps := by
    have hreset := congrArg Schedule.ramps hs.reset
    rw [hdefault]
    apply Array.ext_getElem?
    intro i
    have hi := congrArg (·[i]?) hreset
    simp only [Schedule.reset, Array.getElem?_modify, Array.getElem?_map] at hi
    simp only [Schedule.add, Array.map_push, hclear, Array.getElem?_modify, Array.getElem?_push, Array.size_map,
      Array.getElem?_map]
    by_cases hlast : i = s.ramps.size
    · have hnonzero : 0 ≠ i := by
        have hsize := hs.nonempty
        omega
      simp [hlast, hlast ▸ hnonzero]
    · simpa [hlast] using hi
  refine ⟨by simp [Schedule.add], ?_⟩
  have hactive : s.active = 0 := congrArg Schedule.active hs.reset.symm
  rw [Schedule.reset, hramps, Schedule.add, hactive]

end Schedule

namespace Performance

/-- All counters of a performance have a property. -/
structure EachCounter (C : Counter → Prop) (p : Performance) : Prop where
  jumps : ∀ b, C (p.jump b).counter
  loops : ∀ n l, p.loops.get? n = some l → C l.counter

namespace EachCounter

variable {C D : Counter → Prop} {p : Performance}

theorem imp (hp : p.EachCounter C) (h : ∀ c, C c → D c) : p.EachCounter D :=
  ⟨fun b => h _ (hp.jumps b), fun n l hl => h _ (hp.loops n l hl)⟩

theorem modifyJump (hp : p.EachCounter C) (b : BeatId) {f : Jump → Jump}
    (hf : ∀ j : Jump, C j.counter → C (f j).counter) : (p.modifyJump b f).EachCounter C := by
  refine { hp with jumps := fun c => ?_ }
  rw [jump_modifyJump]
  split
  · exact hf _ (hp.jumps b)
  · exact hp.jumps c

theorem setLoop (hp : p.EachCounter C) (n : Nat) {l : Loop} (hl : C l.counter) : (p.setLoop n l).EachCounter C := by
  refine { hp with loops := fun m k hk => ?_ }
  rw [Performance.setLoop, SortedMap.get?_insert] at hk
  split at hk
  · exact Option.some.inj hk ▸ hl
  · exact hp.loops m k hk

end EachCounter

/-- A performance at its beginning: nothing has been counted, and no ramp has begun. -/
structure IsFresh (p : Performance) : Prop where
  counters : p.EachCounter Counter.IsFresh
  tempo : p.tempo.IsFresh
  dynamics : p.dynamics.IsFresh
  cursor : p.cursor = .notStarted
  position : p.position? = none
  steps : p.steps = 0

namespace IsFresh

variable {p : Performance}

theorem addRamp (hp : p.IsFresh) (quantity : Quantity) (b : BeatId) {r : Ramp} (hr : r.status? = none) :
    (p.addRamp quantity b r).IsFresh := by
  cases quantity with
  | tempo => exact { hp with counters := ⟨hp.counters.jumps, hp.counters.loops⟩, tempo := hp.tempo.add b hr }
  | dynamics =>
    exact { hp with counters := ⟨hp.counters.jumps, hp.counters.loops⟩, dynamics := hp.dynamics.add b hr }

theorem jump_reset (hp : p.IsFresh) (b : BeatId) : (p.jump b).reset = p.jump b := by
  rw [Jump.reset, Counter.reset, ← (hp.counters.jumps b).value]

theorem loops_reset (hp : p.IsFresh) (n : Nat) : (p.loops.get? n).map Loop.reset = p.loops.get? n := by
  cases hl : p.loops.get? n with
  | none => rfl
  | some l => rw [Option.map_some, Loop.reset, Counter.reset, ← (hp.counters.loops n l hl).value]

/-- At the beginning a reset has nothing to do. -/
theorem reset_eq (hp : p.IsFresh) : p.reset none = p := by
  have hjumps : p.jumps.map (·.map Jump.reset) = p.jumps := by
    apply Array.ext_getElem?
    intro b
    rw [Array.getElem?_map]
    cases hb : p.jumps[b]? with
    | none => rfl
    | some j? =>
      cases j? with
      | none => rfl
      | some j =>
        have hjump : p.jump b = j := by simp [jump, findJump?, hb]
        rw [Option.map_some, Option.map_some, ← hjump, hp.jump_reset]
  have hloops : p.loops.mapValues Loop.reset = p.loops := by
    apply SortedMap.ext_get?
    intro n
    rw [SortedMap.get?_mapValues, hp.loops_reset]
  rw [Performance.reset, hjumps, hloops, hp.tempo.reset, hp.dynamics.reset, ← hp.cursor, ← hp.position, ← hp.steps]

end IsFresh

end Performance

/-- A performance that has been set up is at its beginning. -/
theorem Score.arrange_isFresh {s : Score} {settings : Settings} {a : Arrangement} (h : s.arrange settings = .ok a) :
    a.performance.IsFresh := by
  refine Score.arrange_invariant h ?_ ?_ ?_ ?_
  · intro p hp
    have hjumps (b : BeatId) : (p.jump b).counter.IsFresh := by
      rw [Score.plain_jump hp]
      exact ⟨show 0 < Jump.defaultCycle by decide, rfl⟩
    obtain ⟨tempo, dynamics, htempo, hdynamics, rfl⟩ := Score.plain_eq_ok_iff.1 hp
    rw [Performance.createJumps_eq] at hjumps ⊢
    exact ⟨⟨hjumps, nofun⟩, Schedule.ofDefault_isFresh htempo, Schedule.ofDefault_isFresh hdynamics, rfl, rfl, rfl⟩
  · exact fun p b f hf hp => { hp with counters := hp.counters.modifyJump b hf }
  · intro p g count _ hcount hp
    exact { hp with counters := hp.counters.setLoop g.id ⟨UInt32.pos_iff_ne_zero.2 hcount, rfl⟩ }
  · exact fun p quantity b r hset hp => hp.addRamp quantity b hset.status

end Gamelan
