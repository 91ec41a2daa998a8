import Gamelan.Proofs.Ramp.Embedding

namespace Gamelan

theorem Ramp.isSome_status?_next (r : Ramp) : r.next.status?.isSome = r.status?.isSome := by
  rw [next, Option.isSome_map]

namespace Schedule

/-- The active ramp is running and all others are not. The ramps that may begin at a beat are ramps of the schedule,
and the default is none of them. -/
structure HasOneRunning (s : Schedule) : Prop where
  running : ∃ r, s.activeRamp? = some r ∧ r.status?.isSome
  others : ∀ (i : Nat) (r : Ramp), s.ramps[i]? = some r → i ≠ s.active → r.status? = none
  places : ∀ b, ∀ i ∈ s.placesAt b, 1 ≤ i ∧ i < s.ramps.size

variable {s : Schedule}

theorem ofDefault_hasOneRunning {quantity : Quantity} {value : Int32} (h : ofDefault quantity value = .ok s) :
    s.HasOneRunning := by
  obtain ⟨r, -, h⟩ := bind_eq_ok_iff.1 h
  obtain rfl := Except.ok.inj h
  refine ⟨⟨_, rfl, rfl⟩, fun i r' hr' hi => ?_, fun b i hi => by cases hi⟩
  obtain ⟨hlt, -⟩ := Array.getElem?_eq_some_iff.1 hr'
  exact absurd (Nat.lt_one_iff.1 hlt) hi

theorem getElem?_reset (s : Schedule) (i : Nat) :
    s.reset.ramps[i]? =
      if 0 = i then (s.ramps[i]?).map fun r => r.clear.start s.default else (s.ramps[i]?).map Ramp.clear := by
  simp only [reset, Array.getElem?_modify, Array.getElem?_map]
  split
  · rw [Option.map_map]
    rfl
  · rfl

theorem activeRamp?_reset (hpos : 0 < s.ramps.size) :
    s.reset.activeRamp? = some (s.ramps[0].clear.start s.default) := by
  rw [activeRamp?, getElem?_reset, show s.reset.active = 0 from rfl, if_pos rfl, Array.getElem?_eq_getElem hpos,
    Option.map_some]

namespace HasOneRunning

variable (hs : s.HasOneRunning)

include hs

theorem active_lt : s.active < s.ramps.size := by
  obtain ⟨r, hr, -⟩ := hs.running
  exact (Array.getElem?_eq_some_iff.1 hr).1

/-- The values of a schedule are those of the one ramp that is running. -/
theorem exists_span_eq : ∃ r st, s.activeRamp? = some r ∧ r.status? = some st ∧ s.span = st.span := by
  obtain ⟨r, hr, hrunning⟩ := hs.running
  obtain ⟨st, hst⟩ := Option.isSome_iff_exists.1 hrunning
  exact ⟨r, st, hr, hst, span_eq hr hst⟩

theorem add (b : BeatId) {r : Ramp} (hr : r.status? = none) : (s.add b r).HasOneRunning := by
  have hlt := hs.active_lt
  have hget (i : Nat) : (s.add b r).ramps[i]? = if i = s.ramps.size then some r else s.ramps[i]? := by
    rw [Schedule.add, Array.getElem?_push]
  refine ⟨?_, fun i r' hr' hi => ?_, fun c i hi => ?_⟩
  · obtain ⟨r', hr', hrunning⟩ := hs.running
    refine ⟨r', ?_, hrunning⟩
    rw [activeRamp?, hget, if_neg (show (s.add b r).active ≠ _ from Nat.ne_of_lt hlt)]
    exact hr'
  · rw [hget] at hr'
    split at hr'
    · exact Option.some.inj hr' ▸ hr
    · exact hs.others i r' hr' hi
  · have hsize : (s.add b r).ramps.size = s.ramps.size + 1 := Array.size_push _
    rw [placesAt_add, List.mem_append] at hi
    rcases hi with hi | hi
    · have hplace := hs.places c i hi
      omega
    · split at hi
      · rw [List.mem_singleton] at hi
        omega
      · cases hi

theorem reset : s.reset.HasOneRunning := by
  have hpos : 0 < s.ramps.size := Nat.zero_lt_of_lt hs.active_lt
  refine ⟨⟨_, activeRamp?_reset hpos, rfl⟩, fun i r hr hi => ?_, fun b i hi => ?_⟩
  · rw [getElem?_reset, if_neg fun h => hi h.symm] at hr
    obtain ⟨r', -, rfl⟩ := Option.map_eq_some_iff.1 hr
    rfl
  · have hsize : s.reset.ramps.size = s.ramps.size := by simp [Schedule.reset]
    rw [hsize]
    exact hs.places b i hi

/-- After a reset the values are those of the default. -/
theorem span_reset : s.reset.span = ⟨s.default, s.default⟩ := by
  have hpos : 0 < s.ramps.size := Nat.zero_lt_of_lt hs.active_lt
  have hdefault : s.default = s.ramps[0].target := by
    rw [Schedule.default, Array.getElem?_eq_getElem hpos]
    rfl
  rw [span_eq (activeRamp?_reset hpos) rfl, hdefault]
  exact congrArg (fun value => Span.mk value value) (ite_self _)

theorem activate {i : Nat} {r : Ramp} (hi : i ≠ s.active) (hr : s.ramps[i]? = some r) :
    (s.activate i).HasOneRunning := by
  refine ⟨⟨_, activeRamp?_activate hi hr, rfl⟩, fun j r' hr' hj => ?_, fun b j hj => ?_⟩
  · have hji : i ≠ j := fun h => hj h.symm
    simp only [Schedule.activate, Array.getElem?_modify, if_neg hji] at hr'
    split at hr'
    · obtain ⟨r'', -, rfl⟩ := Option.map_eq_some_iff.1 hr'
      rfl
    next hactive => exact hs.others j r' hr' (Ne.symm hactive)
  · have hsize : (s.activate i).ramps.size = s.ramps.size := by simp [Schedule.activate]
    rw [hsize]
    exact hs.places b j hj

theorem turn (b : BeatId) (position? : Option Position) (pass iteration : UInt32) :
    (s.turn b position? pass iteration).HasOneRunning := by
  rcases s.turn_cases b position? pass iteration with hstay | ⟨i, r, -, hi, hr, -, hturn⟩
  · rw [hstay]
    exact hs
  · rw [hturn]
    exact hs.activate hi hr

theorem advance : s.advance.HasOneRunning := by
  refine ⟨?_, fun i r hr hi => ?_, fun b i hi => ?_⟩
  · obtain ⟨r, hr, hrunning⟩ := hs.running
    refine ⟨r.next, ?_, r.isSome_status?_next.trans hrunning⟩
    rw [activeRamp?_advance, hr, Option.map_some]
  · rw [Schedule.advance, Array.getElem?_modify, if_neg fun h => hi h.symm] at hr
    exact hs.others i r hr hi
  · have hsize : s.advance.ramps.size = s.ramps.size := Array.size_modify
    rw [hsize]
    exact hs.places b i hi

theorem enter (b : BeatId) (position? : Option Position) (pass iteration : UInt32) :
    (s.enter b position? pass iteration).HasOneRunning :=
  (hs.turn b position? pass iteration).advance

/-- A ramp that becomes the active one on an arrival starts from the value that the one before has reached, and goes
one beat on. -/
theorem activeRamp?_enter {b : BeatId} {position? : Option Position} {pass iteration : UInt32}
    (hactive : (s.enter b position? pass iteration).active ≠ s.active) :
    ∃ r st new, s.activeRamp? = some r ∧ r.status? = some st ∧
      s.ramps[(s.enter b position? pass iteration).active]? = some new ∧
      (s.enter b position? pass iteration).activeRamp? = some (new.start st.span.stop).next := by
  obtain ⟨r, st, hr, hst, hspan⟩ := hs.exists_span_eq
  have hturn : (s.enter b position? pass iteration).active = (s.turn b position? pass iteration).active := rfl
  rcases s.turn_cases b position? pass iteration with hstay | ⟨i, new, -, hi, hnew, -, hactivate⟩
  · rw [hturn, hstay] at hactive
    exact absurd rfl hactive
  · refine ⟨r, st, new, hr, hst, ?_, ?_⟩
    · rw [hturn, hactivate]
      exact hnew
    · rw [enter_eq, activeRamp?_advance, hactivate, activeRamp?_activate hi hnew, hspan, Option.map_some]

end HasOneRunning

end Schedule

end Gamelan
