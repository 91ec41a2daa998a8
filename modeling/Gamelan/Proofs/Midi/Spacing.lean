import Gamelan.Midi.Track
import Mathlib.Algebra.Group.Nat.Defs
import Mathlib.Data.List.Chain

namespace Gamelan.Midi

/-- The order of the events of a track: by tick, at one tick by `order`, and otherwise as they were given. -/
structure IsOrderOf (events ordered : List Timed) : Prop where
  perm : ordered.Perm events
  sorted : ordered.Pairwise fun a b => a.tick < b.tick ∨ a.tick = b.tick ∧ a.order ≤ b.order
  stable : ∀ tick order, (ordered.filter fun e => e.tick = tick ∧ e.order = order) =
    events.filter fun e => e.tick = tick ∧ e.order = order

/-- The events of a track, each at the sum of the distances up to it, from a tick on. -/
def moments (start : Nat) : Track → List (Nat × Event)
  | [] => []
  | e :: rest => (start + e.delta.toNat, e.event) :: moments (start + e.delta.toNat) rest

/-- The tick of the last of some events. -/
def lastTick (start : UInt32) (events : List Timed) : UInt32 := (events.getLast?.map (·.tick)).getD start

/-- Events and the end of their track, which comes where it is asked for, or with the last event if that is
later. -/
def closed (ordered : List Timed) (stop : UInt32) : List Timed :=
  ordered ++ [⟨max stop (lastTick 0 ordered), 0, .endOfTrack⟩]

/-- Whether every distance between ticks, and the one in front of the first, has room in 28 bits. -/
def HaveRoom (start : Nat) (ticks : List Nat) : Prop := (start :: ticks).IsChain fun a b => b < a + 2 ^ 28

instance (start : Nat) (ticks : List Nat) : Decidable (HaveRoom start ticks) :=
  inferInstanceAs (Decidable (List.IsChain _ _))

namespace Timed

theorem isBefore_iff {a b : Timed} : a.isBefore b ↔ a.tick < b.tick ∨ a.tick = b.tick ∧ a.order ≤ b.order := by
  simp [isBefore]

theorem isBefore_trans (a b c : Timed) (hab : a.isBefore b) (hbc : b.isBefore c) : a.isBefore c := by
  simp only [isBefore_iff, UInt32.lt_iff_toNat_lt, ← UInt32.toNat_inj] at *
  omega

theorem isBefore_total (a b : Timed) : (a.isBefore b || b.isBefore a) = true := by
  simp only [Bool.or_eq_true, isBefore_iff, UInt32.lt_iff_toNat_lt, ← UInt32.toNat_inj]
  omega

theorem tick_le_of_isBefore {a b : Timed} (h : a.isBefore b) : a.tick ≤ b.tick := by
  rcases isBefore_iff.1 h with hlt | ⟨heq, -⟩
  · exact UInt32.le_of_lt hlt
  · exact UInt32.le_of_eq heq

end Timed

/-- Sorting by merging puts events in order and keeps equal ones as they are. -/
theorem isOrderOf_mergeSort (events : List Timed) : IsOrderOf events (events.mergeSort Timed.isBefore) where
  perm := List.mergeSort_perm events Timed.isBefore
  sorted := (List.pairwise_mergeSort Timed.isBefore_trans Timed.isBefore_total events).imp Timed.isBefore_iff.1
  stable := by
    intro tick order
    have hperm := (List.mergeSort_perm events Timed.isBefore).filter
      (fun e => decide (e.tick = tick ∧ e.order = order))
    have hequal : (events.filter fun e => e.tick = tick ∧ e.order = order).Pairwise
        (fun a b => a.isBefore b) := by
      refine List.pairwise_of_forall_mem_list fun a ha b hb => ?_
      have ha := of_decide_eq_true (List.mem_filter.1 ha).2
      have hb := of_decide_eq_true (List.mem_filter.1 hb).2
      exact Timed.isBefore_iff.2 (.inr ⟨ha.1.trans hb.1.symm, by omega⟩)
    have hsublist := List.sublist_mergeSort Timed.isBefore_trans Timed.isBefore_total hequal List.filter_sublist
    have hfiltered := hsublist.filter (fun e => decide (e.tick = tick ∧ e.order = order))
    rw [List.filter_filter] at hfiltered
    simp only [Bool.and_self] at hfiltered
    exact (hfiltered.eq_of_length hperm.length_eq.symm).symm

/-- An event that is before all others stays in front of them. -/
theorem mergeSort_cons_of_isBefore {e : Timed} {es : List Timed} (h : ∀ b ∈ es, e.isBefore b) :
    (e :: es).mergeSort Timed.isBefore = e :: es.mergeSort Timed.isBefore := by
  obtain ⟨l₁, l₂, hcons, hsorted, hlater⟩ :=
    List.mergeSort_cons Timed.isBefore_trans Timed.isBefore_total e es
  have hnil : l₁ = [] := by
    refine List.eq_nil_iff_forall_not_mem.2 fun b hb => ?_
    have hmem : b ∈ es := (List.mergeSort_perm es Timed.isBefore).mem_iff.1 (hsorted ▸ List.mem_append_left _ hb)
    simpa [h b hmem] using hlater b hb
  rw [hcons, hsorted, hnil, List.nil_append, List.nil_append]

theorem toNat_mask28 (n : UInt32) : (mask28 n).toNat = n.toNat % 2 ^ 28 := by
  rw [mask28, UInt32.toNat_and]
  exact Nat.and_two_pow_sub_one_eq_mod n.toNat 28

section Space

variable (start : UInt32) (e : Timed) (es fs : List Timed)

@[simp] theorem space_nil : space start [] = (start, []) := sweep_nil _ _

theorem space_cons :
    space start (e :: es) = ((space e.tick es).1, ⟨mask28 (e.tick - start), e.event⟩ :: (space e.tick es).2) :=
  sweep_cons _ _ _ _

theorem space_fst : (space start es).1 = lastTick start es := by
  induction es generalizing start with
  | nil => simp [lastTick]
  | cons e es ih =>
    rw [space_cons, ih]
    simp [lastTick, List.getLast?_cons]

theorem space_append : (space start (es ++ fs)).2 = (space start es).2 ++ (space (lastTick start es) fs).2 := by
  induction es generalizing start with
  | nil => simp [lastTick]
  | cons e es ih =>
    have hlast : lastTick start (e :: es) = lastTick e.tick es := by simp [lastTick, List.getLast?_cons]
    rw [List.cons_append, space_cons, space_cons, ih, hlast, List.cons_append]

theorem length_space : (space start es).2.length = es.length := by
  induction es generalizing start with
  | nil => simp
  | cons e es ih => simp [space_cons, ih]

theorem map_event_space : (space start es).2.map (·.event) = es.map (·.event) := by
  induction es generalizing start with
  | nil => simp
  | cons e es ih => simp [space_cons, ih]

end Space

/-- The end of a track is spaced like an event at the tick where it belongs. -/
theorem finishTrack_eq (events : List Timed) (stop : UInt32) :
    finishTrack events stop = (space 0 (closed (events.mergeSort Timed.isBefore) stop)).2 := by
  have hrest (last : UInt32) : (if last ≤ stop then stop - last else 0) = max stop last - last := by
    have hmax : last ≤ max stop last := by
      rw [UInt32.le_iff_toNat_le, UInt32.toNat_max]
      omega
    rw [← UInt32.toNat_inj, UInt32.toNat_sub_of_le _ _ hmax, UInt32.toNat_max]
    by_cases hle : last ≤ stop
    · rw [if_pos hle, UInt32.toNat_sub_of_le _ _ hle]
      rw [UInt32.le_iff_toNat_le] at hle
      omega
    · rw [if_neg hle, UInt32.toNat_zero]
      rw [UInt32.le_iff_toNat_le] at hle
      omega
  rw [closed, space_append, space_cons, space_nil, finishTrack]
  simp only [space_fst, hrest]

/-- Distances that are counted on from a tick at or before the right one lead to the ticks of the events or
before them. The right tick is reached where it was right in the beginning and all distances have had room. -/
theorem moments_space {now : Nat} {start : UInt32} {es : List Timed} (hnow : now ≤ start.toNat)
    (hsorted : (start :: es.map (·.tick)).IsChain (· ≤ ·)) {n : Nat} {e : Timed} (he : es[n]? = some e) :
    ∃ moment, (moments now (space start es).2)[n]? = some (moment, e.event) ∧ moment ≤ e.tick.toNat ∧
      (moment = e.tick.toNat ↔
        now = start.toNat ∧ HaveRoom start.toNat ((es.take (n + 1)).map (·.tick.toNat))) := by
  induction es generalizing now start n with
  | nil => cases he
  | cons first es ih =>
    obtain ⟨hle, hrest⟩ := List.isChain_cons_cons.1 hsorted
    have hle' : start.toNat ≤ first.tick.toNat := UInt32.le_iff_toNat_le.1 hle
    rw [space_cons, moments, toNat_mask28, UInt32.toNat_sub_of_le _ _ hle]
    generalize hmoment : now + (first.tick.toNat - start.toNat) % 2 ^ 28 = moment
    have hmod := Nat.mod_le (first.tick.toNat - start.toNat) (2 ^ 28)
    have hbefore : moment ≤ first.tick.toNat := by omega
    -- One more distance leads to the right tick if the sum was right before and the distance has room.
    have hstep : moment = first.tick.toNat ↔ now = start.toNat ∧ first.tick.toNat < start.toNat + 2 ^ 28 := by
      constructor
      · intro heq
        have hlt := Nat.mod_lt (first.tick.toNat - start.toNat) (show 0 < 2 ^ 28 by decide)
        omega
      · rintro ⟨rfl, hroom⟩
        rw [Nat.mod_eq_of_lt (by omega)] at hmoment
        omega
    cases n with
    | zero =>
      obtain rfl := Option.some.inj he
      refine ⟨moment, rfl, hbefore, ?_⟩
      rw [hstep]
      simp [HaveRoom]
    | succ n =>
      obtain ⟨moment', hmoment', hbefore', hiff⟩ := ih hbefore hrest he
      refine ⟨moment', hmoment', hbefore', ?_⟩
      rw [hiff, hstep, List.take_succ_cons, List.map_cons, HaveRoom, HaveRoom, List.isChain_cons_cons, and_assoc]

/-- The ticks of a track go up from zero, the end included. -/
theorem IsOrderOf.isChain {events ordered : List Timed} (h : IsOrderOf events ordered) (stop : UInt32) :
    (0 :: (closed ordered stop).map (·.tick)).IsChain (· ≤ ·) := by
  have hticks : (ordered.map (·.tick)).Pairwise (· ≤ ·) :=
    List.pairwise_map.2 (h.sorted.imp fun hab => Timed.tick_le_of_isBefore (Timed.isBefore_iff.2 hab))
  have hzero : (0 :: ordered.map (·.tick)).IsChain (· ≤ ·) :=
    (List.pairwise_cons.2 ⟨fun _ _ => UInt32.zero_le, hticks⟩).isChain
  have hlast : (0 :: ordered.map (·.tick)).getLast? = some (lastTick 0 ordered) := by
    rw [List.getLast?_cons, List.getLast?_map, lastTick]
  rw [closed, List.map_append, ← List.cons_append, List.isChain_append, hlast]
  refine ⟨hzero, List.isChain_singleton _, ?_⟩
  rintro last ⟨⟩ stop' ⟨⟩
  rw [UInt32.le_iff_toNat_le, UInt32.toNat_max]
  exact Nat.le_max_right _ _

/-- The events of a track are in order, and each one is at its tick exactly if no distance up to it has been too
long for its field; otherwise it comes too early. The same goes for the end of the track. -/
theorem moments_finishTrack (events : List Timed) (stop : UInt32) :
    ∃ ordered, IsOrderOf events ordered ∧ (finishTrack events stop).length = (closed ordered stop).length ∧
      ∀ n e, (closed ordered stop)[n]? = some e →
        ∃ moment, (moments 0 (finishTrack events stop))[n]? = some (moment, e.event) ∧ moment ≤ e.tick.toNat ∧
          (moment = e.tick.toNat ↔ HaveRoom 0 (((closed ordered stop).take (n + 1)).map (·.tick.toNat))) := by
  have horder := isOrderOf_mergeSort events
  refine ⟨_, horder, ?_, ?_⟩
  · rw [finishTrack_eq, length_space]
  · intro n e he
    rw [finishTrack_eq]
    obtain ⟨moment, hmoment, hbefore, hiff⟩ := moments_space (Nat.le_refl 0) (horder.isChain stop) he
    exact ⟨moment, hmoment, hbefore, hiff.trans (and_iff_right rfl)⟩

end Gamelan.Midi
