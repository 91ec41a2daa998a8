import Gamelan.Proofs.Arrangement.Related
import Gamelan.Proofs.Performance.Failure
import Gamelan.Proofs.Performance.Lead

namespace Gamelan

namespace Performance

/-- A performance with another limit. -/
def withLimit (p : Performance) (n : Nat) : Performance := { p with maxSteps := n }

variable {p q : Performance}

theorem destination?_withLimit (p : Performance) (n : Nat) : (p.withLimit n).destination? = p.destination? :=
  p.destination?_limit n p.steps

/-- Nothing that is set up depends on the limit. -/
theorem isCongruence_withLimit (n : Nat) : Arrangement.IsCongruence fun p q => q = p.withLimit n where
  hasLoop := by
    rintro p q rfl m
    rfl
  links := by
    rintro p q rfl taken beats
    exact Arrangement.links_congr (p := p) (q := p.withLimit n) (fun _ => rfl) (fun _ => rfl) (fun _ => rfl) taken beats
  modifyJump := by
    rintro p q rfl b f
    rfl
  setLoop := by
    rintro p q rfl m l
    rfl
  addRamp := by
    rintro p q rfl quantity b r
    cases quantity <;> rfl

theorem map_toList_injective {out out' : Except Error (Array Played)}
    (h : out.map Array.toList = out'.map Array.toList) : out = out' := by
  cases out with
  | error e =>
    cases out' with
    | error e' => exact congrArg Except.error (Except.error.inj h)
    | ok played' => cases h
  | ok played =>
    cases out' with
    | error e' => cases h
    | ok played' => exact congrArg Except.ok (Array.toList_inj.1 (Except.ok.inj h))

namespace IsComplete

theorem withLimit (hp : p.IsComplete) (n : Nat) : (p.withLimit n).IsComplete := hp

/-- A visit does not look at the limit. -/
theorem visit_withLimit (hp : p.IsComplete) (n : Nat) (b : BeatId) :
    (p.withLimit n).visit b = (p.visit b).withLimit n := by
  have hcounts : (p.withLimit n).counts p.currentBeat? b = p.counts p.currentBeat? b :=
    p.counts_limit n p.steps p.currentBeat? b
  have hcounted : (p.counts p.currentBeat? b).foldl Count.apply (p.withLimit n) =
      { (p.counts p.currentBeat? b).foldl Count.apply p with maxSteps := n, steps := p.steps } :=
    p.foldl_apply_limit n p.steps (p.counts p.currentBeat? b)
  have hcurrent : (p.withLimit n).currentBeat? = p.currentBeat? := rfl
  rw [(hp.withLimit n).visit_eq, hp.visit_eq, hcurrent, hcounts, hcounted]
  rfl

/-- The flow is the same under every limit. -/
theorem leads_withLimit (hp : p.IsComplete) (n : Nat) (bs : List BeatId) :
    ((p.withLimit n).Leads bs ↔ p.Leads bs) ∧ (p.withLimit n).visitAll bs = (p.visitAll bs).withLimit n ∧
      (p.withLimit n).visited bs = p.visited bs := by
  induction bs generalizing p with
  | nil => exact ⟨.rfl, rfl, rfl⟩
  | cons b bs ih =>
    obtain ⟨hleads, hvisitAll, hvisited⟩ := ih (hp.visit b)
    rw [Leads, Leads, visitAll_cons, visitAll_cons, visited, visited, destination?_withLimit, hp.visit_withLimit,
      hleads, hvisitAll, hvisited]
    exact ⟨.rfl, rfl, rfl⟩

theorem leads_of_follow (hp : p.IsComplete) {bs : List BeatId} (h : p.follow bs = some q)
    (hend : q.next.1 = .ok none) :
    p.Leads bs ∧ (p.visitAll bs).destination? = none ∧ p.playedAlong bs = p.visited bs := by
  induction bs generalizing p with
  | nil =>
    obtain rfl := Option.some.inj h
    exact ⟨trivial, (hp.next_eq_end_iff.1 hend).2, rfl⟩
  | cons b bs ih =>
    obtain ⟨hdestination, hroom, hrest⟩ := hp.follow_cons_iff.1 h
    obtain ⟨hleads, hlast, hplayed⟩ := ih (hp.visit b) hrest
    refine ⟨⟨hdestination, hleads⟩, hlast, ?_⟩
    rw [playedAlong, visited, hp.next_eq_beat_iff.2 ⟨hdestination, hroom, rfl⟩, hplayed]

/-- A flow that comes to its end is performed under every limit that has room for it. -/
theorem walk_withLimit_of_leads (hp : p.IsComplete) (n : Nat) {position? : Option Position} {bs : List BeatId}
    (h : (p.reset position?).Leads bs) (hend : ((p.reset position?).visitAll bs).destination? = none) :
    ((p.withLimit n).walk position?).1.map Array.toList =
      if bs.length ≤ n then .ok ((p.reset position?).visited bs) else .error (.stepLimit n) := by
  obtain ⟨hleads, hvisitAll, hvisited⟩ := (hp.reset position?).leads_withLimit n bs
  have hlast : (((p.withLimit n).reset position?).visitAll bs).destination? = none := by
    change (((p.reset position?).withLimit n).visitAll bs).destination? = none
    rw [hvisitAll, destination?_withLimit, hend]
  rw [← hvisited]
  exact (hp.withLimit n).walk_of_leads (hleads.2 h) hlast

/-- What is left to perform comes to the end of the flow, or as many beats as the limit allows have been performed and
the next step fails by the limit. -/
theorem finish_stops (hp : p.IsComplete) (hcursor : p.cursor ≠ .finished) (hsteps : p.steps ≤ p.maxSteps)
    (acc : Array Played) :
    ∃ bs q, p.follow bs = some q ∧
      (q.next.1 = .ok none ∧ (finish acc p).1.map Array.toList = .ok (acc.toList ++ p.playedAlong bs) ∨
        q.next.1 = .error (.stepLimit p.maxSteps) ∧ q.steps = p.maxSteps ∧
          (finish acc p).1 = .error (.stepLimit p.maxSteps)) := by
  fun_induction finish acc p with
  | case1 acc p e q hnext =>
    have hlimit : p.next.1 = .error e := congrArg Prod.fst hnext
    obtain rfl := hp.next_error hcursor hlimit
    exact ⟨[], p, rfl, .inr ⟨hlimit, Nat.le_antisymm hsteps (hp.next_eq_limit_iff.1 hlimit).2, rfl⟩⟩
  | case2 acc p q hnext =>
    refine ⟨[], p, rfl, .inl ⟨by rw [hnext], ?_⟩⟩
    simp [playedAlong, Except.map]
  | case3 acc p b q hnext ih =>
    obtain ⟨-, hroom, rfl⟩ := hp.next_eq_beat_iff.1 hnext
    obtain ⟨bs, r, hr, hstop⟩ := ih (hp.visit b) (by simp [visit_cursor])
      (by rw [hp.visit_steps, hp.visit_maxSteps]; exact hroom)
    refine ⟨b :: bs, r, follow_cons_eq_some_iff.2 ⟨_, hnext, hr⟩, ?_⟩
    rw [hp.visit_maxSteps] at hstop
    rwa [playedAlong, hnext, ← List.singleton_append, ← List.append_assoc, ← Array.toList_push]

/-- A walk stops where the flow ends, or where the limit is reached and the next step fails. -/
theorem walk_stops (hp : p.IsComplete) (position? : Option Position) :
    ∃ bs q, (p.reset position?).follow bs = some q ∧ bs.length ≤ p.maxSteps ∧
      (q.next.1 = .ok none ∧ (p.walk position?).1.map Array.toList = .ok ((p.reset position?).playedAlong bs) ∨
        q.next.1 = .error (.stepLimit p.maxSteps) ∧ bs.length = p.maxSteps ∧
          (p.walk position?).1 = .error (.stepLimit p.maxSteps)) := by
  have hreset := hp.reset position?
  obtain ⟨bs, q, hq, hstop⟩ := hreset.finish_stops nofun (Nat.zero_le _) #[]
  obtain ⟨hlength, -, hroom⟩ := hreset.follow_steps hq
  have hsteps : q.steps = bs.length := hlength.trans (Nat.zero_add _)
  have hlimit : q.maxSteps = p.maxSteps := (hreset.follow_steps hq).2.1
  refine ⟨bs, q, hq, by rw [← hsteps, ← hlimit]; exact hroom (Nat.zero_le _), ?_⟩
  rw [hsteps] at hstop
  exact hstop

/-- A walk under a lower limit is the same one if it fits, and fails otherwise. -/
theorem walk_withLimit (hp : p.IsComplete) {n : Nat} (hn : n ≤ p.maxSteps) (position? : Option Position) :
    ((p.withLimit n).walk position?).1 = match (p.walk position?).1 with
      | .ok played => if played.size ≤ n then .ok played else .error (.stepLimit n)
      | .error _ => .error (.stepLimit n) := by
  cases hwalk : (p.walk position?).1 with
  | ok played =>
    obtain ⟨bs, q, hq, -, ⟨hend, hhigh⟩ | ⟨-, -, hhigh⟩⟩ := hp.walk_stops position?
    · obtain ⟨hleads, hlast, hplayed⟩ := (hp.reset position?).leads_of_follow hq hend
      rw [hwalk] at hhigh
      have hlist : played.toList = (p.reset position?).visited bs := (Except.ok.inj hhigh).trans hplayed
      have hsize : played.size = bs.length := by rw [← Array.length_toList, hlist, length_visited]
      apply map_toList_injective
      rw [hp.walk_withLimit_of_leads n hleads hlast, ← hsize, ← hlist]
      by_cases hfits : played.size ≤ n <;> simp [hfits, Except.map]
    · rw [hwalk] at hhigh
      cases hhigh
  | error e =>
    obtain ⟨bs, q, hq, hlength, ⟨hend, -⟩ | ⟨-, -, hlow⟩⟩ := (hp.withLimit n).walk_stops position?
    · -- A flow that ends under the lower limit has room under the other one.
      obtain ⟨hleads, hlast, -⟩ := ((hp.withLimit n).reset position?).leads_of_follow hq hend
      have hhigh := (hp.withLimit n).walk_withLimit_of_leads p.maxSteps hleads hlast
      rw [if_pos (Nat.le_trans hlength hn)] at hhigh
      change (p.walk position?).1.map Array.toList = _ at hhigh
      rw [hwalk] at hhigh
      cases hhigh
    · exact hlow

end IsComplete

end Performance

/-- The limit of the settings is the limit of the performance, and has no other effect on it. -/
theorem Score.arrange_withLimit {s : Score} {settings : Settings} {n : Nat} {b : Arrangement}
    (hb : s.arrange { settings with maxSteps := n } = .ok b) (m : Nat) :
    ∃ a, s.arrange { settings with maxSteps := m } = .ok a ∧ a.performance = b.performance.withLimit m := by
  obtain ⟨p, hp, hperformance, -, hoverflows⟩ := Score.arrange_eq_ok_iff.1 hb
  obtain ⟨tempo, dynamics, htempo, hdynamics, rfl⟩ := Score.plain_eq_ok_iff.1 hp
  have hstep : Arrangement.directStep { settings with maxSteps := m } =
      Arrangement.directStep { settings with maxSteps := n } := by
    funext labels p g d
    cases d <;> rfl
  have hdirect (q : Performance) :
      s.direct { settings with maxSteps := m } q = s.direct { settings with maxSteps := n } q := by
    rw [direct, direct, hstep]
  have hcongruence := Performance.isCongruence_withLimit m
  obtain ⟨hsame, -, hboth⟩ := hcongruence.arranged s { settings with maxSteps := n }
    (hcongruence.createJumps
      (p := { score := s, tempo, dynamics, maxSteps := n, jumps := Array.replicate s.beats.size none })
      rfl (List.range s.beats.size))
  rw [overflows, ← hdirect, ← overflows] at hboth
  obtain ⟨a, ha, hperformance'⟩ := Score.exists_arrange (s := s)
    (Score.plain_eq_ok_iff.2 ⟨tempo, dynamics, htempo, hdynamics, rfl⟩ :
      s.plain { settings with maxSteps := m } = .ok _) (hboth.symm.trans hoverflows)
  refine ⟨a, ha, ?_⟩
  rw [hperformance', hperformance, arranged, hdirect]
  exact hsame

namespace Performance

/-- A walk under a limit is the same as under a higher one if it has no more beats than the limit allows, and fails by
the limit otherwise, as it does where the walk under the higher limit fails. It always stops: where the flow ends, or
where it has performed as many beats as the limit allows and the next step fails by the limit. -/
theorem walk_under_lower_limit {s : Score} {settings : Settings} {m n : Nat} (hmn : m ≤ n) {b : Arrangement}
    (hb : s.arrange { settings with maxSteps := n } = .ok b) (calls calls' : List Call) (position? : Option Position) :
    ∃ a, s.arrange { settings with maxSteps := m } = .ok a ∧
      let p := a.performance.after calls
      let low := (p.walk position?).1
      let high := ((b.performance.after calls').walk position?).1
      (∀ played, high = .ok played → low = if played.size ≤ m then .ok played else .error (.stepLimit m)) ∧
      (∀ e, high = .error e → low = .error (.stepLimit m)) ∧
      ∃ bs q, (p.reset position?).follow bs = some q ∧ bs.length ≤ m ∧
        (q.next.1 = .ok none ∧ low.map Array.toList = .ok ((p.reset position?).playedAlong bs) ∨
          q.next.1 = .error (.stepLimit m) ∧ bs.length = m ∧ low = .error (.stepLimit m)) := by
  obtain ⟨a, ha, hlimit⟩ := Score.arrange_withLimit hb m
  refine ⟨a, ha, ?_⟩
  intro p low high
  have hb' := Score.arrange_isComplete hb
  have hp : p.IsComplete := (Score.arrange_isComplete ha).after calls
  have hmax : b.performance.maxSteps = n := (Score.arrange_score hb).2
  have hlow : low = ((b.performance.withLimit m).walk position?).1 := by
    rw [← hlimit]
    exact congrArg Prod.fst (walk_congr ((Score.arrange_isComplete ha).reset_after calls position?))
  have hhigh : high = (b.performance.walk position?).1 :=
    congrArg Prod.fst (walk_congr (hb'.reset_after calls' position?))
  have hwalk := hb'.walk_withLimit (hmax ▸ hmn) position?
  rw [← hlow, ← hhigh] at hwalk
  refine ⟨?_, ?_, ?_⟩
  · intro played hplayed
    rw [hwalk, hplayed]
  · intro e he
    rw [hwalk, he]
  · have hstops := hp.walk_stops position?
    have hpmax : p.maxSteps = m := by
      have hreset := congrArg (·.maxSteps) ((Score.arrange_isComplete ha).reset_after calls none)
      exact hreset.trans (Score.arrange_score ha).2
    rw [hpmax] at hstops
    exact hstops

/-- A loop of two beats and a third beat, with one beat of room to spare, none, and one too few. -/
theorem walk_under_lower_limit_of_five :
    let m : Manuscript := { gongans := [{ directives := [.loop 2], beats := [{}, {}] }, { beats := [{}] }] }
    ∃ s b played, m.toScore = .ok s ∧ s.arrange { maxSteps := 6 } = .ok b ∧
      (b.performance.walk none).1 = .ok played ∧ played.size = 5 ∧
      (∃ a, s.arrange { maxSteps := 5 } = .ok a ∧ (a.performance.walk none).1 = .ok played) ∧
      ∃ a, s.arrange { maxSteps := 4 } = .ok a ∧ (a.performance.walk none).1 = .error (.stepLimit 4) := by
  intro m
  have harrangement : ∃ s b, m.toScore = .ok s ∧ s.arrange { maxSteps := 6 } = .ok b ∧
      (b.performance.walk none).1.toOption.map Array.size = some 5 :=
    Manuscript.exists_arrangement (by decide +kernel)
  obtain ⟨s, b, hs, hb, hsize⟩ := harrangement
  obtain ⟨played, hplayed, hsize⟩ := Option.map_eq_some_iff.1 hsize
  have hwalk := toOption_eq_some_iff.1 hplayed
  obtain ⟨a, ha, hfits, -⟩ := @walk_under_lower_limit s {} 5 6 (by decide) b hb [] [] none
  obtain ⟨a', ha', hfails, -⟩ := @walk_under_lower_limit s {} 4 6 (by decide) b hb [] [] none
  refine ⟨s, b, played, hs, hb, hwalk, hsize, ⟨a, ha, ?_⟩, a', ha', ?_⟩
  · have hlow := hfits played hwalk
    rwa [hsize] at hlow
  · have hlow := hfails played hwalk
    rwa [hsize] at hlow

end Performance

end Gamelan
