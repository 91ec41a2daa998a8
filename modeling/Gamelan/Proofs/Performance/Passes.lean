import Gamelan.Proofs.Arrangement.Exits
import Gamelan.Proofs.Performance.Follow

namespace Gamelan

/-- Where a counter of a cycle stands when it has counted to `n`. -/
def Counter.valueAfter (cycle n : Nat) : Nat := if n = 0 then 0 else (n - 1) % cycle + 1

namespace Counter

variable {c : Counter} {cycle n : Nat}

theorem valueAfter_le (hcycle : 0 < cycle) (n : Nat) : valueAfter cycle n ≤ cycle := by
  rw [valueAfter]
  split
  · exact Nat.zero_le _
  · exact Nat.mod_lt _ hcycle

/-- In the first cycle a counter stands where it has counted to. -/
theorem valueAfter_of_le (h : n ≤ cycle) : valueAfter cycle n = n := by
  rw [valueAfter]
  split
  · omega
  · rw [Nat.mod_eq_of_lt (by omega)]
    omega

theorem valueAfter_eq_zero_iff : valueAfter cycle n = 0 ↔ n = 0 := by
  rw [valueAfter]
  split <;> simp [*]

theorem toNat_increment (hcycle : 0 < c.cycle.toNat) (h : c.value.toNat = valueAfter c.cycle.toNat n) :
    c.increment.value.toNat = valueAfter c.cycle.toNat (n + 1) := by
  have hbound := c.cycle.toNat_lt
  have hvalue : c.value.toNat ≤ c.cycle.toNat := h ▸ valueAfter_le hcycle n
  have hwrap : c.increment.value.toNat = if c.cycle.toNat ≤ c.value.toNat then 1 else c.value.toNat + 1 := by
    rw [increment]
    by_cases hle : c.cycle ≤ c.value
    · rw [if_pos hle, if_pos (UInt32.le_iff_toNat_le.1 hle)]
      rfl
    · have hlt : c.value.toNat < c.cycle.toNat := by simpa [UInt32.le_iff_toNat_le] using hle
      rw [if_neg hle, if_neg (by omega), UInt32.toNat_add, Nat.mod_eq_of_lt]
      · rfl
      · change c.value.toNat + 1 < 2 ^ 32
        omega
  rw [hwrap, h, valueAfter, valueAfter]
  cases n with
  | zero => simp [Nat.not_le.2 hcycle]
  | succ m =>
    have hsplit : m + 1 = c.cycle.toNat * (m / c.cycle.toNat) + (m % c.cycle.toNat + 1) := by
      rw [← Nat.add_assoc, Nat.div_add_mod]
    have hlt := Nat.mod_lt m hcycle
    have hmod : (m + 1) % c.cycle.toNat = (m % c.cycle.toNat + 1) % c.cycle.toNat := by
      rw [hsplit, Nat.mul_add_mod]
    simp only [Nat.add_one_ne_zero, if_false, Nat.add_sub_cancel, hmod]
    by_cases hlast : m % c.cycle.toNat + 1 = c.cycle.toNat
    · rw [if_pos (by omega), hlast, Nat.mod_self]
    · have hless : m % c.cycle.toNat + 1 < c.cycle.toNat := by omega
      rw [if_neg (by omega), Nat.mod_eq_of_lt hless]

/-- A counter that is set stands where it would stand if it had counted. -/
theorem toNat_set (hcycle : 0 < c.cycle.toNat) (n : UInt32) :
    (c.set n).value.toNat = valueAfter c.cycle.toNat n.toNat := by
  have hmax : (max c.cycle 1).toNat = c.cycle.toNat := by
    rw [UInt32.toNat_max]
    exact Nat.max_eq_left hcycle
  rw [set, valueAfter]
  by_cases hn : n = 0
  · rw [if_pos hn, hn]
    rfl
  · have hpos : n.toNat ≠ 0 := fun h => hn (UInt32.toNat_inj.1 h)
    have hone : (1 : UInt32).toNat = 1 := rfl
    have hsub : (n - 1).toNat = n.toNat - 1 := by
      rw [UInt32.toNat_sub_of_le _ _ (UInt32.le_iff_toNat_le.2 (by omega)), hone]
    have hlt := Nat.mod_lt (n.toNat - 1) hcycle
    have hbound := c.cycle.toNat_lt
    rw [if_neg hn, if_neg hpos, UInt32.toNat_add, UInt32.toNat_mod, hmax, hsub, hone, Nat.mod_eq_of_lt]
    omega

end Counter

/-- The beat after a beat in a sequence that has come through some beats. -/
def Score.onward (s : Score) (targets performed : List BeatId) (b : BeatId) : Option BeatId :=
  ((s.exits targets b)[Counter.valueAfter Jump.defaultCycle.toNat (performed.count b) - 1]?).or (s.next? b)

namespace Performance

/-- A performance that follows a sequence and has come through some beats: the last beats of gongans lead where
the sequence leaves them, one after the other, and count how often they have been performed. -/
structure Sequenced (s : Score) (targets performed : List BeatId) (p : Performance) : Prop where
  complete : p.IsComplete
  score : p.score = s
  loops : ∀ n, p.loops.get? n = none
  otherwise : ∀ b, b < s.beats.size → (p.jump b).otherwise? = some (s.next? b)
  cycle : ∀ b, b < s.beats.size → (p.jump b).counter.cycle = Jump.defaultCycle
  passes : ∀ b, b < s.beats.size → ∀ n : UInt32, (p.jump b).passes.get? n =
    if 0 < n.toNat then ((s.exits targets b)[n.toNat - 1]?).map some else none
  count : ∀ b, b < s.beats.size → s.lastBeatOf b = b →
    (p.jump b).counter.value.toNat = Counter.valueAfter Jump.defaultCycle.toNat (performed.count b)

/-- Without loops every arrival is a new pass. -/
theorem counts_of_loops {p : Performance} (hloops : ∀ n, p.loops.get? n = none) (from? : Option BeatId) (b : BeatId) :
    ∃ n, p.counts from? b =
      .pass b :: (if p.enters from? b then (p.score.earlierBeats b).map (Count.adopted · n) else []) := by
  have hloop : p.loopAt? b = none := hloops _
  refine ⟨((p.countPass b).jump b).counter.value, ?_⟩
  simp [counts, hloop, countIteration]

namespace Sequenced

variable {s : Score} {targets performed : List BeatId} {p q : Performance} {b c : BeatId}

/-- One more beat is performed. -/
theorem visit (h : Sequenced s targets performed p) (hs : s.IsPlaced) (hc : c < s.beats.size) :
    Sequenced s targets (performed ++ [c]) (p.visit c) := by
  have hreset (b : BeatId) : ((p.visit c).jump b).reset = (p.jump b).reset := by
    rw [← jump_reset _ none, h.complete.reset_visit, jump_reset]
  obtain ⟨n, hcounts⟩ := counts_of_loops h.loops p.currentBeat? c
  refine ⟨h.complete.visit c, (h.complete.visit_score c).trans h.score, ?_, ?_, ?_, ?_, ?_⟩
  · intro n
    rw [h.complete.visit_loops, countIteration, loopAt?, h.loops]
    exact h.loops n
  · intro b hb
    have hsame := congrArg Jump.otherwise? (hreset b)
    exact hsame.trans (h.otherwise b hb)
  · intro b hb
    have hsame := congrArg (·.counter.cycle) (hreset b)
    exact hsame.trans (h.cycle b hb)
  · intro b hb n
    have hsame := congrArg (·.passes.get? n) (hreset b)
    exact hsame.trans (h.passes b hb n)
  · intro b hb hlast
    have hadopted : ∀ u ∈ (if p.enters p.currentBeat? c then (p.score.earlierBeats c).map (Count.adopted · n) else []),
        ¬ u.isFor (Count.apply p (.pass c)).score b := by
      intro u hu hfor
      split at hu
      · obtain ⟨e, he, rfl⟩ := List.mem_map.1 hu
        obtain rfl : e = b := hfor
        rw [h.score] at he
        exact hs.not_mem_earlierBeats hc hlast he
      · cases hu
    rw [h.complete.visit_jump, hcounts, List.foldl_cons, (foldl_apply_of_not_isFor hadopted).1, Count.apply,
      jump_modifyJump]
    by_cases hbc : b = c
    · subst hbc
      have hsize : b < p.jumps.size := by rwa [h.complete.1, h.score]
      rw [if_pos ⟨rfl, hsize⟩, List.count_append, List.count_singleton_self, ← h.cycle b hb]
      refine Counter.toNat_increment ?_ ?_
      · rw [h.cycle b hb]
        decide
      · rw [h.cycle b hb]
        exact h.count b hb hlast
    · rw [if_neg fun heq => hbc heq.1, h.count b hb hlast, List.count_append]
      simp [Ne.symm hbc]

/-- All beats that are followed are performed. -/
theorem follow (h : Sequenced s targets performed p) (hs : s.IsPlaced) {bs : List BeatId}
    (hbs : ∀ b ∈ bs, b < s.beats.size) (hq : p.follow bs = some q) : Sequenced s targets (performed ++ bs) q := by
  induction bs generalizing p performed with
  | nil =>
    obtain rfl := Option.some.inj hq
    rwa [List.append_nil]
  | cons b bs ih =>
    obtain ⟨-, -, hrest⟩ := h.complete.follow_cons_iff.1 hq
    have hfollow := ih (h.visit hs (hbs b (.head _))) (fun c hc => hbs c (.tail _ hc)) hrest
    rwa [List.append_assoc] at hfollow

/-- After a beat comes the exit of its pass, or else the next beat of the score. -/
theorem destination?_eq (h : Sequenced s targets performed p) (hs : s.IsPlaced)
    (htargets : ∀ t ∈ targets, t < s.beats.size) (hb : b < s.beats.size) (hcursor : p.cursor = .at b)
    (hperformed : b ∈ performed) : p.destination? = s.onward targets performed b := by
  have hloop : p.loopAt? b = none := h.loops _
  have htarget : p.destination? = (p.jump b).nextBeat? := by
    rw [destination?_eq_of_currentBeat? (currentBeat?_eq_some_iff.2 hcursor), hloop]
    rfl
  rw [htarget, Jump.nextBeat?, h.otherwise b hb, h.passes b hb, Score.onward]
  by_cases hlast : s.lastBeatOf b = b
  · have hcount := h.count b hb hlast
    have hpos : 0 < (p.jump b).counter.value.toNat := by
      have hpos := List.count_pos_iff.2 hperformed
      rw [hcount, Counter.valueAfter, if_neg (by omega)]
      omega
    rw [if_pos hpos, hcount]
    cases (s.exits targets b)[Counter.valueAfter Jump.defaultCycle.toNat (performed.count b) - 1]? <;> rfl
  · rw [s.exits_eq_nil hs htargets hlast]
    split <;> rfl

end Sequenced

end Performance

end Gamelan
