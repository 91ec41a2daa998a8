import Gamelan.Proofs.Ramp.Course

namespace Gamelan

/-- Whether a ramp can take place for a position at all. -/
def Ramp.isHeardBy (r : Ramp) (position? : Option Position) : Bool :=
  r.positions.isEmpty || position?.any (r.positions.contains ·)

theorem Ramp.isHeardBy_of_isFor {r : Ramp} {position? : Option Position} {pass iteration : UInt32}
    (h : r.isFor position? pass iteration) : r.isHeardBy position? := by
  rw [isFor, Bool.and_eq_true, Bool.and_eq_true] at h
  exact h.1.1

namespace Schedule

/-- The places of the ramps that may begin at a beat. -/
def placesAt (s : Schedule) (b : BeatId) : List Nat := (s.byBeat.get? b).getD []

/-- The places of a schedule are those of its ramps. -/
def IsInside (s : Schedule) : Prop := ∀ b, ∀ i ∈ s.placesAt b, i < s.ramps.size

/-- Whether a place is that of a ramp that a position hears. -/
def hears (s : Schedule) (position? : Option Position) (i : Nat) : Bool := (s.ramps[i]?).any (·.isHeardBy position?)

/-- A schedule within a larger one that sounds the same to a position: each ramp has a place there, the ramps that the
position hears come in the same order at each beat, and the active ramps are the same. -/
structure Embeds (position? : Option Position) (place : Nat → Nat) (t s : Schedule) : Prop where
  ramps : ∀ i < t.ramps.size, s.ramps[place i]? = t.ramps[i]?
  injective : ∀ i < t.ramps.size, ∀ j < t.ramps.size, place i = place j → i = j
  zero : place 0 = 0
  heard : ∀ b, (s.placesAt b).filter (s.hears position?) = ((t.placesAt b).filter (t.hears position?)).map place
  inside : t.IsInside ∧ s.IsInside
  active : s.active = place t.active
  active_lt : t.active < t.ramps.size

variable {position? : Option Position} {place : Nat → Nat} {s t : Schedule} {i : Nat}

/-- Who hears a ramp does not depend on how far the ramp has come. -/
theorem hears_congr (h : s.ramps.map Ramp.clear = t.ramps.map Ramp.clear) :
    s.hears position? = t.hears position? := by
  have hclear (s : Schedule) (i : Nat) : s.hears position? i =
      ((s.ramps.map Ramp.clear)[i]?).any (·.isHeardBy position?) := by
    rw [hears, Array.getElem?_map, Option.any_map]
    rfl
  funext i
  rw [hclear, hclear, h]

theorem placesAt_add (s : Schedule) (b : BeatId) (r : Ramp) (c : BeatId) :
    (s.add b r).placesAt c = s.placesAt c ++ if c = b then [s.ramps.size] else [] := by
  rw [placesAt, add, SortedMap.alter, SortedMap.get?_insert]
  split
  next hc => rw [hc]; rfl
  · exact (List.append_nil _).symm

theorem IsInside.add (hs : s.IsInside) (b : BeatId) (r : Ramp) : (s.add b r).IsInside := by
  intro c i hi
  rw [placesAt_add, List.mem_append] at hi
  rw [Schedule.add, Array.size_push]
  rcases hi with hi | hi
  · exact Nat.lt_succ_of_lt (hs c i hi)
  · split at hi
    · exact List.mem_singleton.1 hi ▸ Nat.lt_succ_self _
    · cases hi

/-- What is heard at a beat with one more ramp. -/
theorem filter_placesAt_add (hs : s.IsInside) (b : BeatId) (r : Ramp) (c : BeatId) :
    ((s.add b r).placesAt c).filter ((s.add b r).hears position?) =
      (s.placesAt c).filter (s.hears position?) ++ if c = b ∧ r.isHeardBy position? then [s.ramps.size] else [] := by
  have hhears (i : Nat) : (s.add b r).hears position? i =
      if i = s.ramps.size then r.isHeardBy position? else s.hears position? i := by
    simp only [hears, add, Array.getElem?_push]
    split <;> rfl
  have hold : (s.placesAt c).filter ((s.add b r).hears position?) = (s.placesAt c).filter (s.hears position?) := by
    refine List.filter_congr fun i hi => ?_
    rw [hhears, if_neg (Nat.ne_of_lt (hs c i hi))]
  rw [placesAt_add, List.filter_append, hold]
  congr 1
  by_cases hc : c = b
  · cases hr : r.isHeardBy position? <;> simp [hc, hhears, hr]
  · simp [hc]

/-- An unheard ramp takes no part in what begins at a beat. -/
theorem starting?_eq (s : Schedule) (b : BeatId) (position? : Option Position) (pass iteration : UInt32) :
    s.starting? b position? pass iteration =
      ((s.placesAt b).filter (s.hears position?)).find? fun i =>
        (s.ramps[i]?).any (·.isFor position? pass iteration) := by
  rw [List.find?_filter, starting?]
  congr 1
  funext i
  cases hr : s.ramps[i]? with
  | none => simp
  | some r =>
    cases hfor : r.isFor position? pass iteration with
    | false => simp [hfor]
    | true => simp [hfor, hears, hr, Ramp.isHeardBy_of_isFor hfor]

namespace Embeds

theorem refl (hactive : s.active < s.ramps.size) (hinside : s.IsInside) : Embeds position? id s s where
  ramps _ _ := rfl
  injective _ _ _ _ h := h
  zero := rfl
  heard _ := (List.map_id _).symm
  inside := ⟨hinside, hinside⟩
  active := rfl
  active_lt := hactive

theorem ofDefault {quantity : Quantity} {value : Int32} (hs : Schedule.ofDefault quantity value = .ok s) :
    Embeds position? id s s := by
  obtain ⟨r, -, hs⟩ := bind_eq_ok_iff.1 hs
  obtain rfl := Except.ok.inj hs
  exact refl Nat.one_pos fun b i hi => by cases hi

variable (h : Embeds position? place t s)

include h

theorem place_lt (hi : i < t.ramps.size) : place i < s.ramps.size := by
  have hget := h.ramps i hi
  rw [Array.getElem?_eq_getElem hi] at hget
  exact (Array.getElem?_eq_some_iff.1 hget).1

theorem default_eq : s.default = t.default := by
  have hpos : 0 < t.ramps.size := Nat.zero_lt_of_lt h.active_lt
  have hget := h.ramps 0 hpos
  rw [h.zero] at hget
  rw [default, default, hget]

theorem span_eq : s.span = t.span := by
  rw [span, span, h.active, h.ramps _ h.active_lt, h.default_eq]

/-- What begins at a beat is the same ramp in both. -/
theorem starting?_map (b : BeatId) (pass iteration : UInt32) :
    s.starting? b position? pass iteration = (t.starting? b position? pass iteration).map place := by
  rw [starting?_eq, starting?_eq, h.heard, List.find?_map, ← List.head?_filter, ← List.head?_filter]
  congr 2
  refine List.filter_congr fun i hi => ?_
  rw [Function.comp_apply, h.ramps i (h.inside.1 b i (List.mem_filter.1 hi).1)]

/-- What happens to the ramps at their places in both does not change what is heard. -/
theorem withRamps {rs rs' : Array Ramp} (hclear : rs.map Ramp.clear = t.ramps.map Ramp.clear)
    (hclear' : rs'.map Ramp.clear = s.ramps.map Ramp.clear)
    (hramps : ∀ i < t.ramps.size, rs'[place i]? = rs[i]?) :
    Embeds position? place { t with ramps := rs } { s with ramps := rs' } := by
  have hsize : t.ramps.size = rs.size := by simpa using congrArg Array.size hclear.symm
  have hsize' : s.ramps.size = rs'.size := by simpa using congrArg Array.size hclear'.symm
  have hhears : ({ t with ramps := rs } : Schedule).hears position? = t.hears position? := hears_congr hclear
  have hhears' : ({ s with ramps := rs' } : Schedule).hears position? = s.hears position? := hears_congr hclear'
  refine ⟨fun i hi => ?_, fun i hi j hj => ?_, h.zero, fun b => ?_, ⟨fun b i hi => ?_, fun b i hi => ?_⟩,
    h.active, Nat.lt_of_lt_of_eq h.active_lt hsize⟩
  · exact hramps i (Nat.lt_of_lt_of_eq hi hsize.symm)
  · exact h.injective i (Nat.lt_of_lt_of_eq hi hsize.symm) j (Nat.lt_of_lt_of_eq hj hsize.symm)
  · rw [hhears, hhears']
    exact h.heard b
  · exact Nat.lt_of_lt_of_eq (h.inside.1 b i hi) hsize
  · exact Nat.lt_of_lt_of_eq (h.inside.2 b i hi) hsize'

theorem modify (hi : i < t.ramps.size) {f : Ramp → Ramp} (hf : ∀ r, (f r).clear = r.clear) :
    Embeds position? place { t with ramps := t.ramps.modify i f } { s with ramps := s.ramps.modify (place i) f } := by
  refine h.withRamps (map_clear_modify _ _ hf) (map_clear_modify _ _ hf) fun j hj => ?_
  have hplace : place i = place j ↔ i = j := ⟨h.injective i hi j hj, congrArg place⟩
  simp only [Array.getElem?_modify, h.ramps j hj, hplace]

theorem mapClear : Embeds position? place { t with ramps := t.ramps.map Ramp.clear }
    { s with ramps := s.ramps.map Ramp.clear } := by
  have hclear (rs : Array Ramp) : (rs.map Ramp.clear).map Ramp.clear = rs.map Ramp.clear := Array.map_map
  refine h.withRamps (hclear _) (hclear _) fun i hi => ?_
  simp only [Array.getElem?_map, h.ramps i hi]

theorem setActive (hi : i < t.ramps.size) :
    Embeds position? place { t with active := i } { s with active := place i } :=
  { h with active := rfl, active_lt := hi }

theorem activate (hi : i < t.ramps.size) : Embeds position? place (t.activate i) (s.activate (place i)) := by
  have hclear := h.modify h.active_lt (f := Ramp.clear) fun _ => rfl
  have hstart := hclear.modify (by simpa using hi) (f := (·.start t.span.stop)) fun _ => rfl
  have hactive := hstart.setActive (by simpa using hi)
  rw [Schedule.activate, Schedule.activate, h.span_eq, h.active]
  exact hactive

theorem advance : Embeds position? place t.advance s.advance := by
  have hnext := h.modify h.active_lt (f := Ramp.next) fun _ => rfl
  rw [← h.active] at hnext
  exact hnext

theorem turn (b : BeatId) (pass iteration : UInt32) :
    Embeds position? place (t.turn b position? pass iteration) (s.turn b position? pass iteration) := by
  rw [Schedule.turn, Schedule.turn, h.starting?_map]
  cases hstarting : t.starting? b position? pass iteration with
  | none => exact h
  | some i =>
    have hi : i < t.ramps.size := by
      obtain ⟨r, -, hr, -⟩ := starting?_eq_some hstarting
      exact (Array.getElem?_eq_some_iff.1 hr).1
    have hactive : place i = s.active ↔ i = t.active := by
      rw [h.active]
      exact ⟨h.injective i hi _ h.active_lt, congrArg place⟩
    simp only [Option.map_some, hactive]
    split
    · exact h
    · exact h.activate hi

/-- An arrival does the same to both. -/
theorem enter (b : BeatId) (pass iteration : UInt32) :
    Embeds position? place (t.enter b position? pass iteration) (s.enter b position? pass iteration) :=
  (h.turn b pass iteration).advance

theorem reset : Embeds position? place t.reset s.reset := by
  have hpos : 0 < t.ramps.size := Nat.zero_lt_of_lt h.active_lt
  have hstart := h.mapClear.modify (i := 0) (by simpa using hpos) (f := (·.start t.default)) fun _ => rfl
  have hactive := hstart.setActive (i := 0) (by simpa using hpos)
  rw [h.zero] at hactive
  rw [Schedule.reset, Schedule.reset, h.default_eq]
  exact hactive

/-- One more ramp that the position does not hear changes nothing for it. -/
theorem addUnheard (b : BeatId) {r : Ramp} (hr : r.isHeardBy position? = false) :
    Embeds position? place t (s.add b r) where
  ramps i hi := by
    rw [Schedule.add, Array.getElem?_push, if_neg (Nat.ne_of_lt (h.place_lt hi)), h.ramps i hi]
  injective := h.injective
  zero := h.zero
  heard c := by
    rw [filter_placesAt_add h.inside.2, hr, h.heard]
    simp
  inside := ⟨h.inside.1, h.inside.2.add b r⟩
  active := h.active
  active_lt := h.active_lt

/-- One more ramp in both has the last place in both. -/
theorem add (b : BeatId) (r : Ramp) :
    Embeds position? (fun i => if i = t.ramps.size then s.ramps.size else place i) (t.add b r) (s.add b r) := by
  have hold {i : Nat} (hi : i < t.ramps.size) :
      (if i = t.ramps.size then s.ramps.size else place i) = place i := if_neg (Nat.ne_of_lt hi)
  have hsplit {i : Nat} (hi : i < (t.add b r).ramps.size) : i < t.ramps.size ∨ i = t.ramps.size := by
    rw [Schedule.add, Array.size_push] at hi
    omega
  refine ⟨fun i hi => ?_, fun i hi j hj heq => ?_, ?_, fun c => ?_, ⟨h.inside.1.add b r, h.inside.2.add b r⟩, ?_, ?_⟩
  · simp only [Schedule.add, Array.getElem?_push]
    rcases hsplit hi with hi | rfl
    · rw [hold hi, if_neg (Nat.ne_of_lt hi), if_neg (Nat.ne_of_lt (h.place_lt hi)), h.ramps i hi]
    · simp
  · rcases hsplit hi with hi | rfl <;> rcases hsplit hj with hj | rfl
    · rw [hold hi, hold hj] at heq
      exact h.injective i hi j hj heq
    · rw [hold hi, if_pos rfl] at heq
      exact absurd heq (Nat.ne_of_lt (h.place_lt hi))
    · rw [hold hj, if_pos rfl] at heq
      exact absurd heq.symm (Nat.ne_of_lt (h.place_lt hj))
    · rfl
  · rw [hold (Nat.zero_lt_of_lt h.active_lt), h.zero]
  · have hmap : ((t.placesAt c).filter (t.hears position?)).map
        (fun i => if i = t.ramps.size then s.ramps.size else place i) =
          ((t.placesAt c).filter (t.hears position?)).map place :=
      List.map_congr_left fun i hi => hold (h.inside.1 c i (List.mem_filter.1 hi).1)
    rw [filter_placesAt_add h.inside.2, filter_placesAt_add h.inside.1, List.map_append, hmap, h.heard]
    congr 1
    split <;> simp
  · exact h.active.trans (hold h.active_lt).symm
  · rw [Schedule.add, Array.size_push]
    exact Nat.lt_succ_of_lt h.active_lt

end Embeds

end Schedule

end Gamelan
