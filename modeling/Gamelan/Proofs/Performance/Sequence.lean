import Gamelan.Proofs.Performance.History
import Gamelan.Proofs.Performance.Passes

namespace Gamelan

open Arrangement

/-- The beats of a sequence: each of its beats with the rest of its gongan, and behind the last one the rest of
the score. -/
def Score.sequencePath (s : Score) (targets : List BeatId) : List BeatId :=
  targets.flatMap s.sectionFrom ++ targets.getLast?.elim [] s.beatsAfter

/-- Whether the flow goes straight on from a beat that the sequence has left for the last time: a pass is left
for it, or the pass with which the count starts again leads to the next beat of the score as well. -/
def Score.GoesStraightOn (s : Score) (targets : List BeatId) (b : BeatId) : Prop :=
  (s.exits targets b).length < Jump.defaultCycle.toNat ∨ (s.exits targets b).head? = s.next? b

instance (s : Score) (targets : List BeatId) (b : BeatId) : Decidable (s.GoesStraightOn targets b) :=
  inferInstanceAs (Decidable (_ ∨ _))

/-- An arrangement of nothing but a sequence is ready to perform it. -/
theorem Score.arrange_sequenced {s : Score} {settings : Settings} {a : Arrangement} {names : List String}
    {targets : List BeatId} (h : s.arrange settings = .ok a)
    (hflow : s.acceptedFlow settings = .ok [.sequence names])
    (htargets : names.map s.labels.get? = targets.map some) (position? : Option Position) :
    Performance.Sequenced s targets [] (a.performance.reset position?) ∧
      ∀ b, b < s.beats.size → (s.exits targets b).length ≤ Jump.defaultCycle.toNat := by
  obtain ⟨p, beats, ls, hp, hbeats, hls, hbare⟩ := Score.arrange_of_acceptedFlow h hflow
  have hcomplete := Score.plain_isComplete hp
  have hscore := Score.plain_score hp
  have hjump (e : BeatId) : p.jump e = .straight (p.score.next? e) := by rw [hscore, Score.plain_jump hp]
  have hbeatsEq : beats.map some = targets.map some := (mapM_resolve_eq_ok_iff.1 hbeats).symm.trans htargets
  obtain rfl := (List.map_inj_right fun _ _ => Option.some.inj).1 hbeatsEq
  have hsize : p.jumps.size = s.beats.size := by rw [hcomplete.1, hscore]
  have hkept (e : BeatId) : a.performance.jump e = (p.setLinks ls).jump e :=
    congrArg (·.jump e) hbare
  have hloops : a.performance.loops = .empty := by
    have hlinked : a.performance.loops = (p.setLinks ls).loops := congrArg (·.loops) hbare
    rw [hlinked, p.loops_setLinks, Score.plain_loops hp]
  have hpasses (e : BeatId) (he : e < s.beats.size) :=
    Performance.passes_setLinks hjump (fun e => Nat.zero_le _) hls (q := p) (hsize ▸ he)
  rw [hscore] at hpasses
  refine ⟨⟨(Score.arrange_isComplete h).reset position?, (Score.arrange_score h).1, ?_, ?_, ?_, ?_, ?_⟩, ?_⟩
  · intro n
    change (a.performance.loops.mapValues Loop.reset).get? n = none
    rw [SortedMap.get?_mapValues, hloops]
    rfl
  · intro b _
    rw [Performance.jump_reset, hkept]
    change ((p.setLinks ls).jump b).otherwise? = _
    rw [(p.jump_setLinks ls b).1, hjump, hscore]
    rfl
  · intro b _
    rw [Performance.jump_reset, hkept]
    change ((p.setLinks ls).jump b).counter.cycle = _
    rw [(p.jump_setLinks ls b).2, hjump]
    rfl
  · intro b hb n
    rw [Performance.jump_reset, hkept]
    change ((p.setLinks ls).jump b).passes.get? n = _
    rw [(hpasses b hb).2 n, hjump]
    exact Option.or_none
  · intro b _ _
    rw [Performance.jump_reset]
    rfl
  · intro b hb
    have hlength := (hpasses b hb).1
    change 0 + _ ≤ _ at hlength
    omega

namespace Score.IsPlaced

variable {s : Score} (hs : s.IsPlaced) {targets : List BeatId} (htargets : ∀ t ∈ targets, t < s.beats.size)

include hs htargets

theorem lt_of_mem_sections {b : BeatId} (hb : b ∈ targets.flatMap s.sectionFrom) : b < s.beats.size := by
  obtain ⟨t, ht, hmem⟩ := List.mem_flatMap.1 hb
  have htsize := htargets t ht
  obtain ⟨-, hle, hlt⟩ := hs.beat_bounds htsize
  rw [hs.sectionFrom_eq htsize, List.mem_range'_1] at hmem
  lia

/-- A gongan is performed to its end as often as the sequence goes there. -/
theorem count_sections {e : BeatId} (he : s.lastBeatOf e = e) :
    (targets.flatMap s.sectionFrom).count e = targets.countP (s.lastBeatOf · = e) := by
  induction targets with
  | nil => rfl
  | cons t targets ih =>
    rw [List.flatMap_cons, List.count_append, ih fun u hu => htargets u (.tail _ hu),
      hs.count_sectionFrom (htargets t (.head _)) he, List.countP_cons, Nat.add_comm]
    simp

end Score.IsPlaced

namespace Performance.Sequenced

variable {s : Score} {targets performed : List BeatId} {p q : Performance} {b : BeatId}

/-- Within a gongan the next beat of the score follows. -/
theorem onward_of_ne_last (hs : s.IsPlaced) (htargets : ∀ t ∈ targets, t < s.beats.size) (hb : b < s.beats.size)
    (hlast : s.lastBeatOf b ≠ b) (performed : List BeatId) : s.onward targets performed b = some (b + 1) := by
  obtain ⟨-, hle, hlt⟩ := hs.beat_bounds hb
  rw [Score.onward, s.exits_eq_nil hs htargets hlast, hs.next?_eq hb, if_pos (by lia)]
  rfl

/-- A gongan that is reached is performed to its end. -/
theorem follow_section (hs : s.IsPlaced) (htargets : ∀ t ∈ targets, t < s.beats.size)
    (h : Sequenced s targets performed p) (hb : b < s.beats.size) (hdestination : p.destination? = some b)
    (hroom : p.steps + (s.sectionFrom b).length ≤ p.maxSteps) :
    ∃ q, p.follow (s.sectionFrom b) = some q ∧ q.cursor = .at (s.lastBeatOf b) := by
  generalize hn : s.lastBeatOf b - b = n
  induction n generalizing b p performed with
  | zero =>
    obtain ⟨-, hle, -⟩ := hs.beat_bounds hb
    have hlast : s.lastBeatOf b = b := by lia
    rw [hs.sectionFrom_cons hb, if_pos hlast] at hroom ⊢
    refine ⟨p.visit b, h.complete.follow_cons_iff.2 ⟨hdestination, hroom, rfl⟩, ?_⟩
    rw [hlast]
    rfl
  | succ n ih =>
    obtain ⟨-, hle, hlt⟩ := hs.beat_bounds hb
    have hlast : s.lastBeatOf b ≠ b := by lia
    have hend := hs.lastBeatOf_succ hb hlast
    rw [hs.sectionFrom_cons hb, if_neg hlast, List.length_cons] at hroom
    have hvisit := h.visit hs hb
    have hnext : (p.visit b).destination? = some (b + 1) := by
      rw [hvisit.destination?_eq hs htargets hb rfl (by simp), onward_of_ne_last hs htargets hb hlast]
    obtain ⟨q, hq, hcursor⟩ := ih hvisit (by lia) hnext
      (by rw [h.complete.visit_steps, h.complete.visit_maxSteps]; omega) (by lia)
    refine ⟨q, ?_, hend ▸ hcursor⟩
    rw [hs.sectionFrom_cons hb, if_neg hlast]
    exact h.complete.follow_cons_iff.2 ⟨hdestination, by omega, hq⟩

/-- From the end of a gongan that the sequence leaves once more, it goes on to the next beat of the sequence. -/
theorem onward_of_append {before rest : List BeatId} {c : BeatId} (hs : s.IsPlaced)
    (htargets : ∀ t ∈ before ++ b :: c :: rest, t < s.beats.size)
    (hexits : (s.exits (before ++ b :: c :: rest) (s.lastBeatOf b)).length ≤ Jump.defaultCycle.toNat) :
    s.onward (before ++ b :: c :: rest) ((before ++ [b]).flatMap s.sectionFrom) (s.lastBeatOf b) = some c := by
  have hb := htargets b (by simp)
  have hcount : ((before ++ [b]).flatMap s.sectionFrom).count (s.lastBeatOf b) =
      (s.exits (before ++ [b]) (s.lastBeatOf b)).length + 1 := by
    rw [hs.count_sections (fun t ht => htargets t (by grind)) (hs.lastBeatOf_lastBeatOf hb), s.length_exits_concat,
      List.countP_append]
    simp
  have hsplit := s.exits_append (s.lastBeatOf b) before b (c :: rest)
  rw [s.exits_cons_cons, if_pos rfl] at hsplit
  rw [hsplit, List.length_append] at hexits
  simp only [List.length_append, List.length_singleton] at hexits
  have hpass : Counter.valueAfter Jump.defaultCycle.toNat
      (((before ++ [b]).flatMap s.sectionFrom).count (s.lastBeatOf b)) - 1 =
        (s.exits (before ++ [b]) (s.lastBeatOf b)).length := by
    rw [hcount, Counter.valueAfter, if_neg (by omega), Nat.add_sub_cancel, Nat.add_sub_cancel,
      Nat.mod_eq_of_lt (by omega)]
  rw [Score.onward, hpass, hsplit, List.getElem?_append_right (Nat.le_refl _)]
  simp

/-- The gongans of a sequence are performed one after the other. -/
theorem follow_sections (hs : s.IsPlaced) (htargets : ∀ t ∈ targets, t < s.beats.size)
    (hexits : ∀ b, b < s.beats.size → (s.exits targets b).length ≤ Jump.defaultCycle.toNat)
    {before rest : List BeatId} (hsplit : targets = before ++ b :: rest)
    (h : Sequenced s targets (before.flatMap s.sectionFrom) p) (hdestination : p.destination? = some b)
    (hroom : p.steps + ((b :: rest).flatMap s.sectionFrom).length ≤ p.maxSteps) {t : BeatId}
    (hlast : (b :: rest).getLast? = some t) :
    ∃ q, p.follow ((b :: rest).flatMap s.sectionFrom) = some q ∧ q.cursor = .at (s.lastBeatOf t) := by
  -- What has been performed grows with each gongan, and fixes the passes of all beats on the way.
  induction rest generalizing before b p with
  | nil =>
    obtain rfl : b = t := by simpa using hlast
    have hb : b < s.beats.size := htargets b (by simp [hsplit])
    obtain ⟨q, hq, hcursor⟩ := h.follow_section hs htargets hb hdestination (by simpa using hroom)
    exact ⟨q, by simpa using hq, hcursor⟩
  | cons c rest ih =>
    have hb : b < s.beats.size := htargets b (by simp [hsplit])
    rw [List.flatMap_cons, List.length_append] at hroom
    obtain ⟨q, hq, hcursor⟩ := h.follow_section hs htargets hb hdestination (by omega)
    obtain ⟨hsteps, hlimit, -⟩ := h.complete.follow_steps hq
    obtain ⟨-, hle, hend⟩ := hs.beat_bounds hb
    have hsection : ∀ d ∈ s.sectionFrom b, d < s.beats.size := fun d hd =>
      hs.lt_of_mem_sections htargets (List.mem_flatMap.2 ⟨b, by simp [hsplit], hd⟩)
    have hperformed := h.follow hs hsection hq
    rw [show before.flatMap s.sectionFrom ++ s.sectionFrom b = (before ++ [b]).flatMap s.sectionFrom by simp]
      at hperformed
    have hmem : s.lastBeatOf b ∈ (before ++ [b]).flatMap s.sectionFrom := by
      refine List.mem_flatMap.2 ⟨b, by simp, ?_⟩
      rw [hs.sectionFrom_eq hb, List.mem_range'_1]
      lia
    have hnext : q.destination? = some c := by
      rw [hperformed.destination?_eq hs htargets hend hcursor hmem, hsplit]
      exact onward_of_append hs (hsplit ▸ htargets) (hsplit ▸ hexits _ hend)
    obtain ⟨r, hr, hcursor⟩ := ih (by simp [hsplit]) hperformed hnext (by omega) (by simpa using hlast)
    refine ⟨r, ?_, hcursor⟩
    rw [List.flatMap_cons, follow_append, hq]
    exact hr

/-- Behind the sequence every beat is on the pass after those of its exits. -/
theorem onward_eq_next?_iff (hlength : (s.exits targets b).length ≤ Jump.defaultCycle.toNat)
    (hcount : performed.count b = (s.exits targets b).length + 1) :
    s.onward targets performed b = s.next? b ↔ s.GoesStraightOn targets b := by
  rw [Score.onward, Score.GoesStraightOn, hcount, Counter.valueAfter, if_neg (by omega), Nat.add_sub_cancel,
    Nat.add_sub_cancel]
  by_cases hless : (s.exits targets b).length < Jump.defaultCycle.toNat
  · rw [Nat.mod_eq_of_lt hless, List.getElem?_eq_none (Nat.le_refl _)]
    simp [hless]
  · have hfull : (s.exits targets b).length = Jump.defaultCycle.toNat := by omega
    have hpos : 0 < (s.exits targets b).length := by
      rw [hfull]
      decide
    rw [hfull, Nat.mod_self, ← List.head?_eq_getElem?, List.head?_eq_some_head (List.ne_nil_of_length_pos hpos)]
    simp

/-- Behind the last gongan of a sequence the next beat of the score follows where the flow goes straight on. -/
theorem destination?_eq_next?_iff (hs : s.IsPlaced) (htargets : ∀ t ∈ targets, t < s.beats.size)
    (hexits : ∀ b, b < s.beats.size → (s.exits targets b).length ≤ Jump.defaultCycle.toNat) {t c : BeatId}
    (hlast : targets.getLast? = some t) (hc : s.lastBeatOf t ≤ c) (hsize : c < s.beats.size)
    (h : Sequenced s targets
      (targets.flatMap s.sectionFrom ++ List.range' (s.lastBeatOf t + 1) (c - s.lastBeatOf t)) p)
    (hcursor : p.cursor = .at c) : p.destination? = s.next? c ↔ s.GoesStraightOn targets c := by
  obtain ⟨before, hbefore⟩ := List.getLast?_eq_some_iff.1 hlast
  have ht : t < s.beats.size := htargets t (by simp [hbefore])
  have hmem : c ∈ targets.flatMap s.sectionFrom ++ List.range' (s.lastBeatOf t + 1) (c - s.lastBeatOf t) := by
    rw [List.mem_append, List.mem_range'_1]
    by_cases heq : s.lastBeatOf t = c
    · refine .inl (List.mem_flatMap.2 ⟨t, by simp [hbefore], ?_⟩)
      obtain ⟨-, hle, -⟩ := hs.beat_bounds ht
      rw [hs.sectionFrom_eq ht, List.mem_range'_1]
      lia
    · lia
  rw [h.destination?_eq hs htargets hsize hcursor hmem]
  -- Only the last beat of a gongan has exits.
  by_cases hend : s.lastBeatOf c = c
  · refine onward_eq_next?_iff (hexits c hsize) ?_
    have hnodup : (List.range' (s.lastBeatOf t + 1) (c - s.lastBeatOf t)).Nodup := List.nodup_range'
    rw [List.count_append, hs.count_sections htargets hend, hbefore, s.length_exits_concat, List.countP_append,
      hnodup.count]
    simp only [List.countP_singleton, List.mem_range'_1, decide_eq_true_eq]
    by_cases heq : s.lastBeatOf t = c
    · rw [if_pos heq, if_neg (by lia)]
    · rw [if_neg heq, if_pos (by lia)]
  · rw [Score.onward, Score.GoesStraightOn, s.exits_eq_nil hs htargets hend]
    simp [Jump.defaultCycle]

/-- The rest of the score is performed to its end where the flow goes straight on from every beat. -/
theorem follow_rest_iff (hs : s.IsPlaced) (htargets : ∀ t ∈ targets, t < s.beats.size)
    (hexits : ∀ b, b < s.beats.size → (s.exits targets b).length ≤ Jump.defaultCycle.toNat) {t c : BeatId}
    (hlast : targets.getLast? = some t) (hc : s.lastBeatOf t ≤ c) (hsize : c < s.beats.size)
    (h : Sequenced s targets
      (targets.flatMap s.sectionFrom ++ List.range' (s.lastBeatOf t + 1) (c - s.lastBeatOf t)) p)
    (hcursor : p.cursor = .at c) (hroom : p.steps + (s.beats.size - (c + 1)) ≤ p.maxSteps) :
    (∃ q, p.follow (List.range' (c + 1) (s.beats.size - (c + 1))) = some q ∧ q.next.1 = .ok none) ↔
      ∀ d, c ≤ d → d < s.beats.size → s.GoesStraightOn targets d := by
  have hstraight := h.destination?_eq_next?_iff hs htargets hexits hlast hc hsize hcursor
  generalize hn : s.beats.size - (c + 1) = n at *
  induction n generalizing c p with
  | zero =>
    have hend : s.next? c = none := by rw [hs.next?_eq hsize, if_neg (by lia)]
    rw [hend] at hstraight
    have hstop : p.next.1 = .ok none ↔ p.destination? = none := by
      rw [h.complete.next_eq_end_iff, hcursor]
      simp
    constructor
    · rintro ⟨q, hq, hnone⟩ d hcd hd
      obtain rfl := Option.some.inj hq
      obtain rfl : c = d := by lia
      exact hstraight.1 (hstop.1 hnone)
    · intro hall
      exact ⟨p, rfl, hstop.2 (hstraight.2 (hall c (Nat.le_refl c) hsize))⟩
  | succ n ih =>
    have hnext : s.next? c = some (c + 1) := by rw [hs.next?_eq hsize, if_pos (by lia)]
    rw [hnext] at hstraight
    have hvisit := h.visit hs (c := c + 1) (by lia)
    have hbehind : s.lastBeatOf t + 1 + (c - s.lastBeatOf t) = c + 1 := by lia
    rw [List.append_assoc, ← hbehind, ← List.range'_1_concat, hbehind,
      show c - s.lastBeatOf t + 1 = c + 1 - s.lastBeatOf t by lia] at hvisit
    have hrest := ih (by lia) (by lia) hvisit rfl
      (hvisit.destination?_eq_next?_iff hs htargets hexits hlast (by lia) (by lia) rfl)
      (by lia) (by rw [h.complete.visit_steps, h.complete.visit_maxSteps]; omega)
    rw [List.range'_succ]
    constructor
    · rintro ⟨q, hq, hstop⟩ d hcd hd
      obtain ⟨hdestination, -, hfollow⟩ := h.complete.follow_cons_iff.1 hq
      by_cases hfirst : c = d
      · exact hfirst ▸ hstraight.1 hdestination
      · exact hrest.1 ⟨q, hfollow, hstop⟩ d (by lia) hd
    · intro hall
      obtain ⟨q, hfollow, hstop⟩ := hrest.2 fun d hcd hd => hall d (by lia) hd
      exact ⟨q, h.complete.follow_cons_iff.2
        ⟨hstraight.2 (hall c (Nat.le_refl c) hsize), by omega, hfollow⟩, hstop⟩

end Performance.Sequenced

namespace Performance

/-- Labelled gongans are performed in the order of the only sequence of a score that begins at its first beat,
and the rest of the score behind them, exactly if the flow goes straight on from every beat from the end of the
last one on. It does not where the sequence has used up all passes of such a beat to go elsewhere. -/
theorem walk_sequence_iff {m : Manuscript} {s : Score} {settings : Settings} {a : Arrangement} {names : List String}
    {targets : List BeatId} (hs : m.toScore = .ok s) (ha : s.arrange settings = .ok a)
    (hflow : s.acceptedFlow settings = .ok [.sequence names])
    (htargets : names.map s.labels.get? = targets.map some) (hfirst : targets.head? = some 0)
    (hlimit : (s.sequencePath targets).length ≤ settings.maxSteps) (calls : List Call)
    (position? : Option Position) :
    (∃ played, ((a.performance.after calls).walk position?).1 = .ok played ∧
        played.toList.map (·.beat) = s.sequencePath targets) ↔
      ∀ t ∈ targets.getLast?, ∀ b ∈ s.lastBeatOf t :: s.beatsAfter t, s.GoesStraightOn targets b := by
  have hplaced := Manuscript.toScore_isPlaced hs
  have hcomplete := Score.arrange_isComplete ha
  obtain ⟨hstart, hexits⟩ := Score.arrange_sequenced ha hflow htargets position?
  have hinside : ∀ t ∈ targets, t < s.beats.size := by
    intro t ht
    have hmem : some t ∈ names.map s.labels.get? := by
      rw [htargets]
      exact List.mem_map_of_mem ht
    obtain ⟨name, -, hname⟩ := List.mem_map.1 hmem
    exact Score.labels_lt hplaced hname
  obtain ⟨rest, rfl⟩ := List.head?_eq_some_iff.1 hfirst
  obtain ⟨t, hlast⟩ : ∃ t, (0 :: rest).getLast? = some t := ⟨_, List.getLast?_eq_some_getLast (by simp)⟩
  have ht : t < s.beats.size := hinside t (List.mem_of_getLast? hlast)
  have hpath : s.sequencePath (0 :: rest) = (0 :: rest).flatMap s.sectionFrom ++
      List.range' (s.lastBeatOf t + 1) (s.beats.size - (s.lastBeatOf t + 1)) := by
    rw [Score.sequencePath, hlast, Option.elim_some, hplaced.beatsAfter_eq ht]
  have hdestination : (a.performance.reset position?).destination? = some 0 := by
    have hsize : s.beats.size ≠ 0 := by lia
    change a.performance.score.firstBeat? = some 0
    rw [(Score.arrange_score ha).1, Score.firstBeat?, Array.isEmpty_eq_false_iff.2 (by simpa using hsize)]
    rfl
  have hmax : (a.performance.reset position?).maxSteps = settings.maxSteps := (Score.arrange_score ha).2
  have hsteps : (a.performance.reset position?).steps = 0 := rfl
  rw [hpath, List.length_append, List.length_range'] at hlimit
  obtain ⟨q, hq, hcursor⟩ := hstart.follow_sections hplaced hinside hexits (List.nil_append (0 :: rest)).symm
    hdestination (by omega) hlast
  have hbehind := hstart.follow hplaced (fun b hb => hplaced.lt_of_mem_sections hinside hb) hq
  obtain ⟨hqSteps, hqMax, -⟩ := hstart.complete.follow_steps hq
  obtain ⟨-, -, hend⟩ := hplaced.beat_bounds ht
  have hrest := Sequenced.follow_rest_iff hplaced hinside hexits hlast (Nat.le_refl _) hend
    (by simpa using hbehind) hcursor (by omega)
  rw [walk_congr (hcomplete.reset_after calls position?), walk_beats_iff, hpath]
  simp only [follow_append, hq, Option.bind_some]
  rw [hrest]
  constructor
  · intro hall u hu b hb
    obtain rfl : t = u := by simpa [hlast] using hu
    rcases List.mem_cons.1 hb with rfl | hb
    · exact hall _ (Nat.le_refl _) hend
    · rw [hplaced.beatsAfter_eq ht, List.mem_range'_1] at hb
      exact hall b (by lia) (by lia)
  · intro hall d hd hsize
    refine hall t hlast d ?_
    rw [hplaced.beatsAfter_eq ht, List.mem_cons, List.mem_range'_1]
    by_cases heq : d = s.lastBeatOf t
    · exact .inl heq
    · exact .inr (by lia)

/-- Three gongans in an order of their own, one of them twice. -/
theorem walk_sequence_of_three :
    let m : Manuscript := { gongans := [
      { directives := [.label "A" 1, .label "B" 2, .sequence ["A", "C", "B", "C"]], beats := [{}, {}] },
      { directives := [.label "C" 1, .tempo 90 {}], beats := [{}] },
      { beats := [{}] }] }
    let targets := [0, 2, 1, 2]
    ∃ s a, m.toScore = .ok s ∧ s.arrange {} = .ok a ∧
      s.acceptedFlow {} = .ok [.sequence ["A", "C", "B", "C"]] ∧
      ["A", "C", "B", "C"].map s.labels.get? = targets.map some ∧ targets.head? = some 0 ∧
      (s.sequencePath targets).length ≤ ({} : Settings).maxSteps ∧
      ∃ played, ((a.performance.after [.next, .next]).walk (some "gangsa")).1 = .ok played ∧
        played.toList.map (·.beat) = s.sequencePath targets := by
  intro m targets
  have harrangement : ∃ s a, m.toScore = .ok s ∧ s.arrange {} = .ok a ∧
      (s.acceptedFlow {}).toOption = some [.sequence ["A", "C", "B", "C"]] ∧
      ["A", "C", "B", "C"].map s.labels.get? = targets.map some ∧
      (s.sequencePath targets).length ≤ ({} : Settings).maxSteps ∧
      ∀ t ∈ targets.getLast?, ∀ b ∈ s.lastBeatOf t :: s.beatsAfter t, s.GoesStraightOn targets b :=
    Manuscript.exists_arrangement (by decide +kernel)
  obtain ⟨s, a, hs, ha, haccepted, htargets, hlimit, hstraight⟩ := harrangement
  have hflow := toOption_eq_some_iff.1 haccepted
  exact ⟨s, a, hs, ha, hflow, htargets, rfl, hlimit,
    (walk_sequence_iff hs ha hflow htargets rfl hlimit [.next, .next] (some "gangsa")).2 hstraight⟩

/-- A gongan that is left on all passes is not left for good: the sequence begins once more. -/
theorem walk_sequence_of_hundred :
    let names := List.replicate 100 "A"
    let m : Manuscript := { gongans := [{ directives := [.label "A" 1, .sequence names], beats := [{}] }] }
    let targets := List.replicate 100 0
    ∃ s a, m.toScore = .ok s ∧ s.arrange { maxSteps := 100 } = .ok a ∧
      s.acceptedFlow { maxSteps := 100 } = .ok [.sequence names] ∧ names.map s.labels.get? = targets.map some ∧
      (s.sequencePath targets).length ≤ 100 ∧
      ¬ ∃ played, (a.performance.walk none).1 = .ok played ∧
        played.toList.map (·.beat) = s.sequencePath targets := by
  intro names m targets
  have harrangement : ∃ s a, m.toScore = .ok s ∧ s.arrange { maxSteps := 100 } = .ok a ∧
      (s.acceptedFlow { maxSteps := 100 }).toOption = some [.sequence names] ∧
      names.map s.labels.get? = targets.map some ∧ (s.sequencePath targets).length ≤ 100 ∧
      (a.performance.walk none).1.toOption.isNone :=
    Manuscript.exists_arrangement (by decide +kernel)
  obtain ⟨s, a, hs, ha, haccepted, htargets, hlimit, hwalk⟩ := harrangement
  refine ⟨s, a, hs, ha, toOption_eq_some_iff.1 haccepted, htargets, hlimit, ?_⟩
  rintro ⟨played, hplayed, -⟩
  simp [hplayed, Except.toOption] at hwalk

end Performance

end Gamelan
