import Gamelan.Proofs.Performance.Follow

namespace Gamelan.Performance

/-- Whether some beats are the next ones of the flow, whatever the limit. -/
def Leads (p : Performance) : List BeatId → Prop
  | [] => True
  | b :: bs => p.destination? = some b ∧ (p.visit b).Leads bs

/-- The performance after visits to some beats. -/
def visitAll (p : Performance) (bs : List BeatId) : Performance := bs.foldl visit p

/-- Beats as they are performed on visits to them. -/
def visited (p : Performance) : List BeatId → List Played
  | [] => []
  | b :: bs => (p.visit b).played b :: (p.visit b).visited bs

section Append

variable (p : Performance) (bs cs : List BeatId)

@[simp] theorem visitAll_nil : p.visitAll [] = p := rfl

@[simp] theorem visitAll_cons (b : BeatId) : p.visitAll (b :: bs) = (p.visit b).visitAll bs := rfl

theorem visitAll_append : p.visitAll (bs ++ cs) = (p.visitAll bs).visitAll cs := List.foldl_append

theorem leads_append : p.Leads (bs ++ cs) ↔ p.Leads bs ∧ (p.visitAll bs).Leads cs := by
  induction bs generalizing p with
  | nil => simp [Leads]
  | cons b bs ih => simp only [List.cons_append, Leads, visitAll_cons, ih, and_assoc]

theorem visited_append : p.visited (bs ++ cs) = p.visited bs ++ (p.visitAll bs).visited cs := by
  induction bs generalizing p with
  | nil => rfl
  | cons b bs ih => rw [List.cons_append, visited, visited, ih, List.cons_append, visitAll_cons]

theorem visited_take (n : Nat) : p.visited (bs.take n) = (p.visited bs).take n := by
  induction bs generalizing p n with
  | nil => simp [visited]
  | cons b bs ih =>
    cases n with
    | zero => rfl
    | succ n => simp [visited, ih]

@[simp] theorem length_visited : (p.visited bs).length = bs.length := by
  induction bs generalizing p with
  | nil => rfl
  | cons b bs ih => simp [visited, ih]

theorem map_beat_visited : (p.visited bs).map (·.beat) = bs := by
  induction bs generalizing p with
  | nil => rfl
  | cons b bs ih => rw [visited, List.map_cons, ih, played]

theorem visitAll_cursor (hcursor : p.cursor ≠ .finished) : (p.visitAll bs).cursor ≠ .finished := by
  induction bs generalizing p with
  | nil => exact hcursor
  | cons b bs ih => exact ih (p.visit b) (by simp [visit_cursor])

end Append

namespace IsComplete

variable {p : Performance}

theorem visitAll (hp : p.IsComplete) (bs : List BeatId) : (p.visitAll bs).IsComplete := by
  induction bs generalizing p with
  | nil => exact hp
  | cons b bs ih => exact ih (hp.visit b)

/-- What every visit preserves holds after all visits. -/
theorem visitAll_invariant {I : Performance → Prop} {bs : List BeatId} (hp : p.IsComplete)
    (hvisit : ∀ p, ∀ b ∈ bs, p.IsComplete → I p → I (p.visit b)) (hI : I p) : I (p.visitAll bs) := by
  induction bs generalizing p with
  | nil => exact hI
  | cons b bs ih =>
    exact ih (hp.visit b) (fun q c hc => hvisit q c (.tail _ hc)) (hvisit p b (.head _) hp hI)

theorem visitAll_steps (hp : p.IsComplete) (bs : List BeatId) :
    (p.visitAll bs).steps = p.steps + bs.length ∧ (p.visitAll bs).maxSteps = p.maxSteps := by
  induction bs generalizing p with
  | nil => exact ⟨rfl, rfl⟩
  | cons b bs ih =>
    obtain ⟨hsteps, hlimit⟩ := ih (hp.visit b)
    rw [hp.visit_steps] at hsteps
    rw [hp.visit_maxSteps] at hlimit
    refine ⟨?_, hlimit⟩
    rw [visitAll_cons, hsteps, List.length_cons]
    omega

/-- The next beats are performed if the limit has room for them. -/
theorem follow_of_leads (hp : p.IsComplete) {bs : List BeatId} (h : p.Leads bs)
    (hroom : p.steps + bs.length ≤ p.maxSteps) :
    p.follow bs = some (p.visitAll bs) ∧ p.playedAlong bs = p.visited bs := by
  induction bs generalizing p with
  | nil => exact ⟨rfl, rfl⟩
  | cons b bs ih =>
    rw [List.length_cons] at hroom
    have hnext : p.next = (.ok (some b), p.visit b) := hp.next_eq_beat_iff.2 ⟨h.1, by omega, rfl⟩
    obtain ⟨hfollow, hplayed⟩ := ih (hp.visit b) h.2 (by rw [hp.visit_steps, hp.visit_maxSteps]; omega)
    refine ⟨hp.follow_cons_iff.2 ⟨h.1, by omega, hfollow⟩, ?_⟩
    rw [playedAlong, hnext, visited, hplayed]

/-- The step after some beats: the limit stops it, the flow ends, or it goes on. -/
theorem next_fst (hp : p.IsComplete) (hcursor : p.cursor ≠ .finished) :
    p.next.1 = match p.destination? with
      | none => .ok none
      | some b => if p.maxSteps ≤ p.steps then .error (.stepLimit p.maxSteps) else .ok (some b) := by
  rw [hp.next_eq, if_neg hcursor]
  cases p.destination? with
  | none => rfl
  | some b =>
    simp only
    split <;> rfl

/-- The next beats are performed as far as the limit allows, and behind them the limit stops the flow, or it ends or
goes on. -/
theorem follow_take (hp : p.IsComplete) {bs : List BeatId} (h : p.Leads bs)
    (hcursor : (p.visitAll bs).cursor ≠ .finished) (room : Nat) (hroom : p.steps + room = p.maxSteps) :
    ∃ q, p.follow (bs.take room) = some q ∧ p.playedAlong (bs.take room) = (p.visited bs).take room ∧
      q.next.1 =
        if room < bs.length then .error (.stepLimit p.maxSteps)
        else match (p.visitAll bs).destination? with
          | none => .ok none
          | some b => if room = bs.length then .error (.stepLimit p.maxSteps) else .ok (some b) := by
  have hsplit := (leads_append p (bs.take room) (bs.drop room)).1 (by rwa [List.take_append_drop])
  obtain ⟨hfollow, hplayed⟩ := hp.follow_of_leads hsplit.1 (by rw [List.length_take]; omega)
  refine ⟨_, hfollow, by rw [hplayed, visited_take], ?_⟩
  have hvisited := hp.visitAll (bs.take room)
  obtain ⟨htaken, hlimit⟩ := hp.visitAll_steps (bs.take room)
  rw [List.length_take] at htaken
  by_cases hless : room < bs.length
  · rw [if_pos hless]
    rw [List.drop_eq_getElem_cons hless] at hsplit
    have hdestination := hsplit.2.1
    have hgoing : (p.visitAll (bs.take room)).cursor ≠ .finished := by
      intro hfinished
      simp [destination?, hfinished] at hdestination
    rw [hvisited.next_fst hgoing, hdestination, hlimit]
    exact if_pos (by omega)
  · rw [if_neg hless]
    rw [List.take_of_length_le (by omega)] at hvisited htaken hlimit ⊢
    rw [hvisited.next_fst hcursor, hlimit, htaken]
    cases (p.visitAll bs).destination? with
    | none => rfl
    | some b => exact if_congr (by omega) rfl rfl

/-- A flow that comes to its end is performed in full if the limit has room for it, and fails otherwise. -/
theorem finish_of_leads (hp : p.IsComplete) (hcursor : p.cursor ≠ .finished) {bs : List BeatId} (h : p.Leads bs)
    (hend : (p.visitAll bs).destination? = none) (hsteps : p.steps ≤ p.maxSteps) (acc : Array Played) :
    (finish acc p).1.map Array.toList =
      if p.steps + bs.length ≤ p.maxSteps then .ok (acc.toList ++ p.visited bs)
      else .error (.stepLimit p.maxSteps) := by
  induction bs generalizing p acc with
  | nil =>
    rw [finish_of_end (q := p.next.2) (Prod.ext (hp.next_eq_end_iff.2 ⟨hcursor, hend⟩) rfl)]
    simp [hsteps, visited, Except.map]
  | cons b bs ih =>
    by_cases hlimit : p.maxSteps ≤ p.steps
    · have hstop := hp.next_eq_limit_iff.2 ⟨by rw [h.1]; rfl, hlimit⟩
      rw [finish_of_error (q := p.next.2) (Prod.ext hstop rfl), if_neg (by rw [List.length_cons]; omega)]
      rfl
    · rw [finish_of_beat (hp.next_eq_beat_iff.2 ⟨h.1, Nat.lt_of_not_le hlimit, rfl⟩)]
      have hvisit := ih (hp.visit b) (by simp [visit_cursor]) h.2 hend
        (by rw [hp.visit_steps, hp.visit_maxSteps]; omega) (acc.push ((p.visit b).played b))
      rw [hp.visit_steps, hp.visit_maxSteps, Nat.add_right_comm, Nat.add_assoc] at hvisit
      rw [hvisit]
      simp [visited]

theorem walk_of_leads (hp : p.IsComplete) {position? : Option Position} {bs : List BeatId}
    (h : (p.reset position?).Leads bs) (hend : ((p.reset position?).visitAll bs).destination? = none) :
    (p.walk position?).1.map Array.toList =
      if bs.length ≤ p.maxSteps then .ok ((p.reset position?).visited bs) else .error (.stepLimit p.maxSteps) := by
  have hfinish := (hp.reset position?).finish_of_leads nofun h hend (Nat.zero_le _) #[]
  have hsteps : (p.reset position?).steps + bs.length = bs.length := Nat.zero_add _
  rw [hsteps, List.nil_append] at hfinish
  exact hfinish

end IsComplete

end Gamelan.Performance
