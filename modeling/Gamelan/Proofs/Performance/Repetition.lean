import Gamelan.Proofs.Performance.Arrival
import Gamelan.Proofs.Performance.Lead
import Gamelan.Proofs.Performance.Passes

namespace Gamelan

/-- The target on a pass: its own one, else the one for other passes, else none. -/
def Jump.targetOn? (j : Jump) (n : UInt32) : Option BeatId := ((j.target? (.pass n)).or (j.target? .otherwise)).join

theorem Jump.nextBeat?_eq (j : Jump) : j.nextBeat? = j.targetOn? j.counter.value := rfl

theorem Jump.exists_target?_of_targetOn? {j : Jump} {n : UInt32} {t : BeatId} (h : j.targetOn? n = some t) :
    ∃ key, j.target? key = some (some t) := by
  rw [targetOn?, Option.join_eq_some_iff, Option.or_eq_some_iff] at h
  rcases h with hpass | ⟨-, hotherwise⟩
  · exact ⟨_, hpass⟩
  · exact ⟨_, hotherwise⟩

namespace Performance

/-- A gongan that is performed from its first beat to its last and, by its loop, several times over: no jump leaves
it before its end. -/
structure PlaysThrough (a : Performance) (g : Gongan) (times : Nat) : Prop where
  placed : a.score.IsPlaced
  ownLoops : a.HasOwnLoops
  mem : g ∈ a.score.gongans.toList
  loop : a.loops.get? g.id = none ∧ times = 1 ∨ ∃ count, times = count.toNat ∧ 0 < count ∧
    a.loops.get? g.id = some (.ofCount g.lastBeat g.firstBeat count)
  cycle : ∀ b ∈ g.beats, 0 < (a.jump b).counter.cycle
  inner : ∀ b ∈ g.beats, b ≠ g.lastBeat → a.jump b = .straight (some (b + 1))

/-- Where the counters of a gongan stand after a number of entries: its loop in a round, the beats in front of
`behind` on the pass of the last entry, and the others on the one before. -/
structure Standing (a : Performance) (g : Gongan) (entries round : Nat) (behind : BeatId) (p : Performance) : Prop where
  complete : p.IsComplete
  same : p.reset none = a.reset none
  round : ∀ l, p.loops.get? g.id = some l → l.counter.value.toNat = round
  passes : ∀ b ∈ g.beats, (p.jump b).counter.value.toNat =
    Counter.valueAfter (a.jump b).counter.cycle.toNat (if b < behind then entries else entries - 1)

/-- Where a gongan stands while it is not performed: after an entry, at the end of the last round. -/
def Ready (a : Performance) (g : Gongan) (times entries : Nat) (p : Performance) : Prop :=
  Standing a g entries (if entries = 0 then 0 else times) (g.lastBeat + 1) p

/-- The pass of a beat after a number of entries to its gongan: they go round in the cycle of its jump. -/
def pass (a : Performance) (b : BeatId) (entries : Nat) : UInt32 :=
  UInt32.ofNat (Counter.valueAfter (a.jump b).counter.cycle.toNat entries)

/-- A beat as it is performed after a number of entries to its gongan, in a round. -/
def flowOf (a : Performance) (entries round : Nat) (b : BeatId) : BeatId × String × UInt32 × UInt32 :=
  (b, a.score.fullId b, pass a b entries, UInt32.ofNat round)

/-- A performance that is in a gongan, on a beat in a round. -/
structure Inside (a : Performance) (g : Gongan) (times entries round : Nat) (b : BeatId) (p : Performance) : Prop where
  cursor : p.cursor = .at b
  beat : b ∈ g.beats
  entered : 0 < entries
  started : 0 < round
  bound : round ≤ times
  standing : Standing a g entries round (if round = 1 then b + 1 else g.lastBeat + 1) p

variable {a p : Performance} {g : Gongan} {times entries round : Nat} {b c behind : BeatId}

theorem PlaysThrough.times_pos (ha : PlaysThrough a g times) : 0 < times := by
  rcases ha.loop with ⟨-, rfl⟩ | ⟨count, rfl, hcount, -⟩
  · exact Nat.one_pos
  · exact UInt32.lt_iff_toNat_lt.1 hcount

theorem HasOwnLoops.of_reset_eq (ha : a.HasOwnLoops) (h : p.reset none = a.reset none) : p.HasOwnLoops := by
  intro n l hl
  have hloops := loops_reset_congr h n
  rw [hl] at hloops
  obtain ⟨k, hk, hreset⟩ := Option.map_eq_some_iff.1 hloops.symm
  have hscore : p.score = a.score := congrArg (·.score) h
  have hto : k.toBeat = l.toBeat := congrArg (·.toBeat) hreset
  rw [hscore, ← hto]
  exact ha n k hk

section Visit

variable (hp : p.IsComplete) (hs : p.score.IsPlaced) (hg : g ∈ p.score.gongans.toList)

include hp hs hg

/-- On the first beat of a gongan its loop begins a round. -/
theorem loops_visit_of_mem (hloops : p.HasOwnLoops) (hc : c ∈ g.beats) :
    (p.visit c).loops.get? g.id =
      if c = g.firstBeat then (p.loops.get? g.id).map Loop.increment else p.loops.get? g.id := by
  obtain ⟨hof, hfirst, -⟩ := hs.gonganOf_of_mem hg hc
  have hvisit := hp.loopAt?_visit hs hloops c c
  rwa [loopAt?, loopAt?, hp.visit_score, hof, hfirst] at hvisit

/-- A beat of a gongan is on a new pass in the first round, and the other beats are where they were: it is the
first one, or it is reached from within. -/
theorem jump_visit_of_mem (hc : c ∈ g.beats) (hstay : c = g.firstBeat ∨ p.enters p.currentBeat? c = false)
    (b : BeatId) :
    (p.visit c).jump b =
      if b = c ∧ ((p.visit c).loops.get? g.id).all (·.counter.value ≤ 1) then (p.jump b).increment else p.jump b := by
  obtain ⟨hof, hfirst, -⟩ := hs.gonganOf_of_mem hg hc
  have hsize := hs.lt_size_of_mem hg hc
  have hskips : ¬ (p.enters p.currentBeat? c ∧ b ∈ p.score.earlierBeats c) := by
    rintro ⟨henters, hearlier⟩
    rw [hs.earlierBeats_eq hsize, List.mem_range'_1, hfirst] at hearlier
    rcases hstay with hcf | hstay
    · lia
    · simp [hstay] at henters
  have hloop : (p.visit c).loops.get? g.id = (p.visit c).loopAt? c := by rw [loopAt?, hp.visit_score, hof]
  rw [hp.jump_visit hs hsize, if_neg hskips, hloop]
  by_cases hbc : b = c
  · simp only [hbc, if_true, true_and]
  · rw [if_neg hbc, if_neg fun h => hbc h.1]

end Visit

namespace Standing

variable (h : Standing a g entries round behind p) (ha : PlaysThrough a g times)

include h

theorem score : p.score = a.score := congrArg (·.score) h.same

theorem jump_reset (b : BeatId) : (p.jump b).reset = (a.jump b).reset := jump_reset_congr h.same b

theorem cycle (b : BeatId) : (p.jump b).counter.cycle = (a.jump b).counter.cycle :=
  congrArg (·.counter.cycle) (h.jump_reset b)

theorem same_visit (c : BeatId) : (p.visit c).reset none = a.reset none :=
  (h.complete.reset_visit c none).trans h.same

/-- The loop of a gongan is the one that is set up for it. -/
theorem loop_eq (ha : PlaysThrough a g times) {l : Loop} (hl : p.loops.get? g.id = some l) :
    l.fromBeat = g.lastBeat ∧ l.toBeat = g.firstBeat ∧ l.counter.cycle.toNat = times := by
  have hreset := loops_reset_congr h.same g.id
  rcases ha.loop with ⟨hnone, -⟩ | ⟨count, htimes, -, hloop⟩
  · simp [hl, hnone] at hreset
  · rw [hl, hloop] at hreset
    have hsame : l.reset = Loop.reset (.ofCount g.lastBeat g.firstBeat count) := Option.some.inj hreset
    exact ⟨congrArg (·.fromBeat) hsame, congrArg (·.toBeat) hsame,
      (congrArg (·.counter.cycle.toNat) hsame).trans htimes.symm⟩

theorem times_eq_one (ha : PlaysThrough a g times) (hl : p.loops.get? g.id = none) : times = 1 := by
  have hreset := loops_reset_congr h.same g.id
  rcases ha.loop with ⟨-, htimes⟩ | ⟨count, -, -, hloop⟩
  · exact htimes
  · simp [hl, hloop] at hreset

/-- A gongan does not notice what is performed outside. -/
theorem visit_of_notMem (ha : PlaysThrough a g times) (hc : c ∉ g.beats) :
    Standing a g entries round behind (p.visit c) := by
  have hs : p.score.IsPlaced := h.score ▸ ha.placed
  have hg : g ∈ p.score.gongans.toList := h.score ▸ ha.mem
  have hkept {b : BeatId} (hb : b ∈ g.beats) :
      (p.visit c).jump b = p.jump b ∧ (p.visit c).loopAt? b = p.loopAt? b := by
    rw [h.complete.visit_jump, h.complete.visit_loopAt?]
    refine foldl_apply_of_not_isFor fun u hu hfor => ?_
    obtain ⟨hof, hfirst, hlast⟩ := hs.gonganOf_of_mem hg hb
    rcases (h.complete.exists_isFor_counts_iff hs (ha.ownLoops.of_reset_eq h.same) c b).1 ⟨u, hu, hfor⟩ with
      ⟨-, rfl⟩ | ⟨rfl, -⟩ | ⟨-, hearlier⟩
    · rw [hfirst] at hc
      exact hc (hs.ends_mem hg).1
    · exact hc hb
    · by_cases hsize : c < p.score.beats.size
      · have hplace := hearlier
        rw [hs.earlierBeats_eq hsize, List.mem_range'_1] at hplace
        have hbsize := hs.lt_size_of_mem hg hb
        obtain ⟨-, hle, -⟩ := hs.beat_bounds hsize
        have hsame := (hs.gonganOf_eq_iff hsize hbsize).2 (by lia)
        exact hc (hs.mem_beats_of_gonganOf hg (hsame.symm.trans hof))
      · simp [Score.earlierBeats, Array.getElem?_eq_none (Nat.le_of_not_lt hsize)] at hearlier
  have hfirst := (hs.ends_mem hg).1
  refine ⟨h.complete.visit c, h.same_visit c, ?_, ?_⟩
  · intro l hl
    have hof := (hs.gonganOf_of_mem hg hfirst).1
    have hloop := (hkept hfirst).2
    rw [loopAt?, loopAt?, h.complete.visit_score, hof, hl] at hloop
    exact h.round l hloop.symm
  · intro b hb
    rw [(hkept hb).1]
    exact h.passes b hb

/-- On the first beat the loop goes on to its next round, and begins again after the last one. -/
theorem round_visit (ha : PlaysThrough a g times) (hc : c ∈ g.beats) (hbound : round ≤ times) {l : Loop}
    (hl : (p.visit c).loops.get? g.id = some l) :
    l.counter.value.toNat = if c = g.firstBeat then round % times + 1 else round := by
  rw [loops_visit_of_mem h.complete (h.score ▸ ha.placed) (h.score ▸ ha.mem) (ha.ownLoops.of_reset_eq h.same) hc] at hl
  by_cases hcf : c = g.firstBeat
  · rw [if_pos hcf] at hl ⊢
    obtain ⟨k, hk, rfl⟩ := Option.map_eq_some_iff.1 hl
    obtain ⟨-, -, hcycle⟩ := h.loop_eq ha hk
    have hround := h.round k hk
    have htimes := ha.times_pos
    have hvalue : k.counter.value.toNat = Counter.valueAfter k.counter.cycle.toNat round := by
      rw [hround, hcycle, Counter.valueAfter_of_le hbound]
    have hnext := Counter.toNat_increment (by omega) hvalue
    rw [hcycle, Counter.valueAfter, if_neg (by omega), Nat.add_sub_cancel] at hnext
    exact hnext
  · rw [if_neg hcf] at hl ⊢
    exact h.round l hl

/-- In the first round a beat takes the next pass. -/
theorem passes_visit (ha : PlaysThrough a g times) (hc : c ∈ g.beats)
    (hstay : c = g.firstBeat ∨ p.enters p.currentBeat? c = false) (hbound : round ≤ times) (hb : b ∈ g.beats) {n : Nat}
    (hn : (p.jump b).counter.value.toNat = Counter.valueAfter (a.jump b).counter.cycle.toNat n) :
    ((p.visit c).jump b).counter.value.toNat = Counter.valueAfter (a.jump b).counter.cycle.toNat
      (if b = c ∧ (if c = g.firstBeat then round % times + 1 else round) ≤ 1 then n + 1 else n) := by
  have hfirst : ((p.visit c).loops.get? g.id).all (·.counter.value ≤ 1) ↔
      (if c = g.firstBeat then round % times + 1 else round) ≤ 1 := by
    cases hl : (p.visit c).loops.get? g.id with
    | some l =>
      rw [← h.round_visit ha hc hbound hl]
      simp [UInt32.le_iff_toNat_le]
    | none =>
      have htimes := h.times_eq_one ha (by
        rw [loops_visit_of_mem h.complete (h.score ▸ ha.placed) (h.score ▸ ha.mem)
          (ha.ownLoops.of_reset_eq h.same) hc] at hl
        split at hl
        · exact Option.map_eq_none_iff.1 hl
        · exact hl)
      simp only [Option.all_none, true_iff]
      rw [htimes] at hbound ⊢
      split <;> omega
  rw [jump_visit_of_mem h.complete (h.score ▸ ha.placed) (h.score ▸ ha.mem) hc hstay]
  simp only [hfirst]
  by_cases hcount : b = c ∧ (if c = g.firstBeat then round % times + 1 else round) ≤ 1
  · rw [if_pos hcount, if_pos hcount, ← h.cycle b]
    refine Counter.toNat_increment ?_ (h.cycle b ▸ hn)
    rw [h.cycle b]
    exact UInt32.lt_iff_toNat_lt.1 (ha.cycle b hb)
  · rw [if_neg hcount, if_neg hcount, hn]

end Standing

/-- An entry at the first beat begins the first round, on the next pass of every beat. -/
theorem Ready.visit (h : Ready a g times entries p) (ha : PlaysThrough a g times) :
    Inside a g times (entries + 1) 1 g.firstBeat (p.visit g.firstBeat) := by
  have hfirst := (ha.placed.ends_mem ha.mem).1
  have htimes := ha.times_pos
  have hbound : (if entries = 0 then 0 else times) ≤ times := by split <;> omega
  have hwrap : (if entries = 0 then 0 else times) % times + 1 = 1 := by split <;> simp
  refine ⟨visit_cursor _ _, hfirst, Nat.succ_pos _, Nat.one_pos, htimes, h.complete.visit _, h.same_visit _, ?_, ?_⟩
  · intro l hl
    rw [h.round_visit ha hfirst hbound hl, if_pos rfl, hwrap]
  · intro b hb
    have hpasses := h.passes_visit ha hfirst (.inl rfl) hbound hb (h.passes b hb)
    obtain ⟨hle, hlast⟩ := (ha.placed.mem_beats_iff ha.mem).1 hb
    rw [if_pos rfl, hwrap, if_pos (Nat.lt_succ_of_le hlast)] at hpasses
    rw [hpasses, if_pos rfl, Nat.add_sub_cancel]
    congr 1
    by_cases hbf : b = g.firstBeat
    · rw [if_pos ⟨hbf, Nat.le_refl 1⟩, if_pos (by lia)]
    · rw [if_neg fun heq => hbf heq.1, if_neg (by lia)]

namespace Inside

variable (h : Inside a g times entries round b p) (ha : PlaysThrough a g times)

include h ha

/-- From a beat to the next one of the gongan the round stays. -/
theorem visit_succ (hlast : b ≠ g.lastBeat) : Inside a g times entries round (b + 1) (p.visit (b + 1)) := by
  have hs := ha.placed
  obtain ⟨hle, hend⟩ := (hs.mem_beats_iff ha.mem).1 h.beat
  have hc : b + 1 ∈ g.beats := (hs.mem_beats_iff ha.mem).2 (by lia)
  have hne : b + 1 ≠ g.firstBeat := by lia
  have hstay : p.enters p.currentBeat? (b + 1) = false := by
    have hof := (hs.gonganOf_of_mem ha.mem h.beat).1
    have hof' := (hs.gonganOf_of_mem ha.mem hc).1
    simp [enters, currentBeat?, h.cursor, h.standing.score, hof, hof']
  refine ⟨visit_cursor _ _, hc, h.entered, h.started, h.bound, h.standing.complete.visit _, h.standing.same_visit _,
    ?_, ?_⟩
  · intro l hl
    rw [h.standing.round_visit ha hc h.bound hl, if_neg hne]
  · intro e he
    have hpasses := h.standing.passes_visit ha hc (.inr hstay) h.bound he (h.standing.passes e he)
    have hentered := h.entered
    have hstarted := h.started
    rw [if_neg hne] at hpasses
    rw [hpasses]
    congr 1
    by_cases hround : round = 1
    · simp only [hround, if_true]
      by_cases heb : e = b + 1
      · rw [if_pos ⟨heb, Nat.le_refl 1⟩, if_neg (by lia), if_pos (by lia)]
        lia
      · rw [if_neg fun heq => heb heq.1]
        simp only [show e < b + 1 ↔ e < b + 1 + 1 by lia]
    · rw [if_neg fun heq => hround (by omega), if_neg hround, if_neg hround]

/-- From the last beat the loop goes back to the first one, and its next round begins. -/
theorem visit_first (hlast : b = g.lastBeat) (hround : round < times) :
    Inside a g times entries (round + 1) g.firstBeat (p.visit g.firstBeat) := by
  have hfirst := (ha.placed.ends_mem ha.mem).1
  have hstarted := h.started
  have hstanding := h.standing
  rw [hlast, ite_self] at hstanding
  refine ⟨visit_cursor _ _, hfirst, h.entered, Nat.succ_pos _, hround, hstanding.complete.visit _,
    hstanding.same_visit _, ?_, ?_⟩
  · intro l hl
    rw [hstanding.round_visit ha hfirst h.bound hl, if_pos rfl, Nat.mod_eq_of_lt hround]
  · intro e he
    have hpasses := hstanding.passes_visit ha hfirst (.inl rfl) h.bound he (hstanding.passes e he)
    rw [if_pos rfl, Nat.mod_eq_of_lt hround, if_neg fun heq => by omega] at hpasses
    rw [hpasses, if_neg (by omega : round + 1 ≠ 1)]

omit ha in
/-- At the end of the last round the gongan is ready for another entry. -/
theorem ready (hlast : b = g.lastBeat) (hround : round = times) : Ready a g times entries p := by
  have hstanding := h.standing
  have hentered := h.entered
  rw [hlast, ite_self, hround] at hstanding
  rw [Ready, if_neg (by omega)]
  exact hstanding

/-- On a beat in a gongan its loop goes back from the last beat while rounds remain. -/
theorem loop_nextBeat? : (p.loopAt? b).bind (·.nextBeat? b) =
    if b = g.lastBeat ∧ round < times then some g.firstBeat else none := by
  have hof : p.score.gonganOf b = g.id := by
    rw [h.standing.score]
    exact (ha.placed.gonganOf_of_mem ha.mem h.beat).1
  rw [loopAt?, hof]
  cases hl : p.loops.get? g.id with
  | none =>
    have htimes := h.standing.times_eq_one ha hl
    have hstarted := h.started
    rw [if_neg (by omega)]
    rfl
  | some l =>
    obtain ⟨hfrom, hto, hcycle⟩ := h.standing.loop_eq ha hl
    have hround := h.standing.round l hl
    simp only [Option.bind_some, Loop.nextBeat?, hfrom, hto, UInt32.lt_iff_toNat_lt, hround, hcycle]

theorem counter_value : (p.jump b).counter.value = pass a b entries := by
  have hpasses := h.standing.passes b h.beat
  have hle := ((ha.placed.mem_beats_iff ha.mem).1 h.beat).2
  rw [if_pos (by split <;> lia)] at hpasses
  rw [pass, ← hpasses, UInt32.ofNat_toNat]

/-- After a beat in a gongan comes the first one while rounds remain, and otherwise what its jump gives for the pass
of the entry. -/
theorem destination?_eq : p.destination? =
    if b = g.lastBeat ∧ round < times then some g.firstBeat else (a.jump b).targetOn? (pass a b entries) := by
  have hnext : (p.jump b).nextBeat? = (a.jump b).targetOn? (pass a b entries) := by
    rw [Jump.nextBeat?_eq, h.counter_value ha]
    exact congrArg (·.targetOn? (pass a b entries)) (h.standing.jump_reset b)
  rw [destination?_eq_of_currentBeat? (currentBeat?_eq_some_iff.2 h.cursor), h.loop_nextBeat? ha, hnext]
  split <;> rfl

/-- Within a gongan the next beat follows. -/
theorem destination?_of_ne_last (hlast : b ≠ g.lastBeat) : p.destination? = some (b + 1) := by
  rw [h.destination?_eq ha, if_neg fun heq => hlast heq.1, ha.inner b h.beat hlast]
  rfl

/-- The beat as it is performed: on the pass of the entry, in the round of the loop. -/
theorem played_flow : (p.played b).flow = flowOf a entries round b := by
  have hcurrent : p.currentBeat? = some b := currentBeat?_eq_some_iff.2 h.cursor
  have hpass : p.currentPass = pass a b entries := by rw [currentPass_eq hcurrent, h.counter_value ha]
  have hiteration : p.currentIteration = UInt32.ofNat round := by
    have hof : p.score.gonganOf b = g.id := by
      rw [h.standing.score]
      exact (ha.placed.gonganOf_of_mem ha.mem h.beat).1
    have hstarted := h.started
    rw [currentIteration_eq hcurrent, loopAt?, hof]
    cases hl : p.loops.get? g.id with
    | none =>
      have htimes := h.standing.times_eq_one ha hl
      have hbound := h.bound
      rw [show round = 1 by omega]
      rfl
    | some l =>
      rw [← h.standing.round l hl] at hstarted ⊢
      rw [Option.elim_some, UInt32.ofNat_toNat, ← UInt32.toNat_inj, UInt32.toNat_max]
      exact Nat.max_eq_left hstarted
  rw [Played.flow, played, hpass, hiteration, h.standing.score, flowOf]

/-- The rest of a round. -/
theorem leads_round {n : Nat} (hn : b + n = g.lastBeat) :
    p.Leads (List.range' (b + 1) n) ∧
      Inside a g times entries round g.lastBeat (p.visitAll (List.range' (b + 1) n)) ∧
      (p.visited (List.range' (b + 1) n)).map Played.flow =
        (List.range' (b + 1) n).map (flowOf a entries round) := by
  induction n generalizing b p with
  | zero => exact ⟨trivial, by rwa [← hn], rfl⟩
  | succ n ih =>
    have hlast : b ≠ g.lastBeat := by lia
    have hnext := h.visit_succ ha hlast
    obtain ⟨hleads, hinside, hflow⟩ := ih hnext (by lia)
    rw [List.range'_succ]
    refine ⟨⟨h.destination?_of_ne_last ha hlast, hleads⟩, hinside, ?_⟩
    rw [visited, List.map_cons, List.map_cons, hflow, hnext.played_flow ha]

omit h in
/-- A whole round, once the first beat is reached. -/
theorem leads_beats (hdestination : p.destination? = some g.firstBeat)
    (h : Inside a g times entries round g.firstBeat (p.visit g.firstBeat)) :
    p.Leads g.beats ∧ Inside a g times entries round g.lastBeat (p.visitAll g.beats) ∧
      (p.visited g.beats).map Played.flow = g.beats.map (flowOf a entries round) := by
  obtain ⟨n, hn⟩ : ∃ n, g.beats = List.range' g.firstBeat (n + 1) := by
    have hpos := List.length_pos_iff.2 (ha.placed.nonempty g ha.mem)
    refine ⟨g.beats.length - 1, ?_⟩
    rw [Nat.sub_add_cancel hpos]
    exact ha.placed.consecutive g ha.mem
  have hlast := ha.placed.lastBeat_eq ha.mem
  rw [hn, List.length_range'] at hlast
  obtain ⟨hleads, hinside, hflow⟩ := h.leads_round ha (n := n) (by lia)
  rw [hn, List.range'_succ]
  refine ⟨⟨hdestination, hleads⟩, hinside, ?_⟩
  rw [visited, List.map_cons, List.map_cons, hflow, h.played_flow ha]

/-- The rounds that remain after one that is at its end. -/
theorem leads_rounds (hlast : b = g.lastBeat) {n : Nat} (hn : round + n = times) :
    p.Leads ((List.range' (round + 1) n).flatMap fun _ => g.beats) ∧
      Inside a g times entries times g.lastBeat
        (p.visitAll ((List.range' (round + 1) n).flatMap fun _ => g.beats)) ∧
      (p.visited ((List.range' (round + 1) n).flatMap fun _ => g.beats)).map Played.flow =
        (List.range' (round + 1) n).flatMap fun k => g.beats.map (flowOf a entries k) := by
  induction n generalizing round b p with
  | zero => exact ⟨trivial, by simpa [← hn, ← hlast] using h, rfl⟩
  | succ n ih =>
    have hround : round < times := by omega
    have hdestination : p.destination? = some g.firstBeat := by rw [h.destination?_eq ha, if_pos ⟨hlast, hround⟩]
    obtain ⟨hleads, hinside, hflow⟩ := leads_beats ha hdestination (h.visit_first ha hlast hround)
    obtain ⟨hleads', hinside', hflow'⟩ := ih hinside rfl (by omega)
    rw [List.range'_succ, List.flatMap_cons, List.flatMap_cons, leads_append, visitAll_append, visited_append,
      List.map_append, hflow, hflow']
    exact ⟨⟨hleads, hleads'⟩, hinside', rfl⟩

end Inside

/-- An entry plays the gongan in full: all rounds from the first beat to the last, and every beat on one pass. -/
theorem Ready.leads (h : Ready a g times entries p) (ha : PlaysThrough a g times)
    (hdestination : p.destination? = some g.firstBeat) :
    p.Leads ((List.range' 1 times).flatMap fun _ => g.beats) ∧
      Inside a g times (entries + 1) times g.lastBeat
        (p.visitAll ((List.range' 1 times).flatMap fun _ => g.beats)) ∧
      (p.visited ((List.range' 1 times).flatMap fun _ => g.beats)).map Played.flow =
        (List.range' 1 times).flatMap fun k => g.beats.map (flowOf a (entries + 1) k) := by
  obtain ⟨n, rfl⟩ : ∃ n, times = n + 1 := ⟨times - 1, (Nat.sub_add_cancel ha.times_pos).symm⟩
  obtain ⟨hleads, hinside, hflow⟩ := Inside.leads_beats ha hdestination (h.visit ha)
  obtain ⟨hleads', hinside', hflow'⟩ := hinside.leads_rounds ha rfl (n := n) (by omega)
  rw [List.range'_succ, List.flatMap_cons, List.flatMap_cons, leads_append, visitAll_append, visited_append,
    List.map_append, hflow, hflow']
  exact ⟨⟨hleads, hleads'⟩, hinside', rfl⟩

end Performance

end Gamelan
