import Gamelan.Proofs.Performance.Loops

namespace Gamelan

open Arrangement

namespace Performance

/-- Where a loop leads from the current beat, none if no loop does. -/
def loopTarget? (p : Performance) : Option BeatId :=
  p.currentBeat?.bind fun b => (p.loopAt? b).bind (·.nextBeat? b)

/-- How often a beat is reached on the way through some beats, other than by a loop. -/
def entriesAlong (p : Performance) (first : BeatId) : List BeatId → Nat
  | [] => 0
  | b :: bs => (if b = first ∧ p.loopTarget? = none then 1 else 0) + p.next.2.entriesAlong first bs

/-- No jump leads into a gongan but to its first beat; the other beats are reached from the one in front. -/
def EntersFirst (a : Performance) (g : Gongan) : Prop :=
  ∀ b key t, (a.jump b).target? key = some (some t) → t ∈ g.beats → t = g.firstBeat ∨ t = b + 1 ∧ b ∈ g.beats

/-- Where a performance is with respect to a gongan: outside, or on one of its beats. -/
inductive Phase (a : Performance) (g : Gongan) (times entries : Nat) (p : Performance) : Prop where
  | outside (ready : Ready a g times entries p) (away : ∀ b, p.currentBeat? = some b → b ∉ g.beats)
  | inside (round : Nat) (b : BeatId) (inside : Inside a g times entries round b p)

variable {a p : Performance} {g : Gongan} {times entries round : Nat} {b c : BeatId}

theorem EntersFirst.of_targetOn? (h : EntersFirst a g) {n : UInt32} {t : BeatId}
    (ht : (a.jump b).targetOn? n = some t) (hmem : t ∈ g.beats) : t = g.firstBeat ∨ t = b + 1 ∧ b ∈ g.beats := by
  obtain ⟨key, htarget⟩ := Jump.exists_target?_of_targetOn? ht
  exact h b key t htarget hmem

/-- From outside a gongan is entered at its first beat, and not by a loop. -/
theorem Standing.enters_first {behind : BeatId} (h : Standing a g entries round behind p)
    (ha : PlaysThrough a g times) (henters : EntersFirst a g) (haway : ∀ b, p.currentBeat? = some b → b ∉ g.beats)
    (hdestination : p.destination? = some c) (hc : c ∈ g.beats) : c = g.firstBeat ∧ p.loopTarget? = none := by
  have hs : p.score.IsPlaced := h.score ▸ ha.placed
  have hg : g ∈ p.score.gongans.toList := h.score ▸ ha.mem
  cases hcursor : p.cursor with
  | notStarted =>
    rw [destination?, hcursor] at hdestination
    obtain ⟨-, rfl⟩ := Score.firstBeat?_eq_some_iff.1 hdestination
    have hle := ((hs.mem_beats_iff hg).1 hc).1
    exact ⟨by lia, by rw [loopTarget?, currentBeat?, hcursor]; rfl⟩
  | finished =>
    rw [destination?, hcursor] at hdestination
    cases hdestination
  | «at» b =>
    have hcurrent : p.currentBeat? = some b := currentBeat?_eq_some_iff.2 hcursor
    rw [destination?_eq_of_currentBeat? hcurrent] at hdestination
    rw [loopTarget?, hcurrent, Option.bind_some]
    cases hloop : (p.loopAt? b).bind (·.nextBeat? b) with
    | some t =>
      -- The loop of another gongan stays there.
      rw [hloop, Option.some_or, Option.some.injEq] at hdestination
      obtain ⟨l, hl, hnext⟩ := Option.bind_eq_some_iff.1 hloop
      obtain ⟨hto, hof⟩ := (ha.ownLoops.of_reset_eq h.same).toBeat_eq hs hl
      have htarget : l.toBeat = c := by
        rw [Loop.nextBeat?] at hnext
        split at hnext
        · exact (Option.some.inj hnext).trans hdestination
        · cases hnext
      rw [← hto, htarget, (hs.gonganOf_of_mem hg hc).1] at hof
      exact absurd (hs.mem_beats_of_gonganOf hg hof.symm) (haway b hcurrent)
    | none =>
      rw [hloop, Option.none_or, Jump.nextBeat?_eq] at hdestination
      have htarget := (congrArg (·.targetOn? (p.jump b).counter.value) (h.jump_reset b)).symm.trans hdestination
      rcases henters.of_targetOn? htarget hc with hfirst | ⟨-, hb⟩
      · exact ⟨hfirst, rfl⟩
      · exact absurd hb (haway b hcurrent)

theorem Inside.loopTarget?_eq (h : Inside a g times entries round b p) (ha : PlaysThrough a g times) :
    p.loopTarget? = if b = g.lastBeat ∧ round < times then some g.firstBeat else none := by
  rw [loopTarget?, currentBeat?, h.cursor]
  exact h.loop_nextBeat? ha

namespace Phase

/-- A gongan that is ready is entered on the next beat, or is left alone. -/
theorem visit_of_ready (h : Ready a g times entries p) (ha : PlaysThrough a g times)
    (hfirst : c ∈ g.beats → c = g.firstBeat ∧ p.loopTarget? = none) :
    Phase a g times (entries + if c = g.firstBeat ∧ p.loopTarget? = none then 1 else 0) (p.visit c) := by
  by_cases hc : c ∈ g.beats
  · obtain ⟨rfl, hloop⟩ := hfirst hc
    rw [if_pos ⟨rfl, hloop⟩]
    exact .inside 1 g.firstBeat (h.visit ha)
  · have hne : c ≠ g.firstBeat := fun heq => hc (heq ▸ (ha.placed.ends_mem ha.mem).1)
    rw [if_neg fun heq => hne heq.1]
    refine .outside (h.visit_of_notMem ha hc) ?_
    rintro b ⟨⟩
    exact hc

/-- One more beat: an entry begins the next round of passes, and everything else goes on with the last one. -/
theorem visit (h : Phase a g times entries p) (ha : PlaysThrough a g times) (henters : EntersFirst a g)
    (hdestination : p.destination? = some c) :
    Phase a g times (entries + if c = g.firstBeat ∧ p.loopTarget? = none then 1 else 0) (p.visit c) := by
  cases h with
  | outside hready haway =>
    exact visit_of_ready hready ha fun hc => hready.enters_first ha henters haway hdestination hc
  | inside round b hinside =>
    by_cases hb : b = g.lastBeat
    · by_cases hround : round < times
      · rw [hinside.destination?_eq ha, if_pos ⟨hb, hround⟩, Option.some.injEq] at hdestination
        subst hdestination
        have hloop := hinside.loopTarget?_eq ha
        rw [if_pos ⟨hb, hround⟩] at hloop
        rw [if_neg (by simp [hloop])]
        exact .inside _ _ (hinside.visit_first ha hb hround)
      · have hbound := hinside.bound
        refine visit_of_ready (hinside.ready hb (by omega)) ha fun hc => ?_
        rw [hinside.destination?_eq ha, if_neg fun heq => hround heq.2] at hdestination
        rcases henters.of_targetOn? hdestination hc with hfirst | ⟨rfl, -⟩
        · exact ⟨hfirst, by rw [hinside.loopTarget?_eq ha, if_neg fun heq => hround heq.2]⟩
        · have hend := ((ha.placed.mem_beats_iff ha.mem).1 hc).2
          lia
    · rw [hinside.destination?_of_ne_last ha hb, Option.some.injEq] at hdestination
      subst hdestination
      have hstart := ((ha.placed.mem_beats_iff ha.mem).1 hinside.beat).1
      rw [if_neg fun heq => by lia]
      exact .inside _ _ (hinside.visit_succ ha hb)

/-- All entries on the way are counted. -/
theorem follow (h : Phase a g times entries p) (hp : p.IsComplete) (ha : PlaysThrough a g times)
    (henters : EntersFirst a g) {bs : List BeatId} {q : Performance} (hq : p.follow bs = some q) :
    Phase a g times (entries + p.entriesAlong g.firstBeat bs) q := by
  induction bs generalizing p entries with
  | nil =>
    obtain rfl := Option.some.inj hq
    exact h
  | cons b bs ih =>
    obtain ⟨hdestination, hsteps, hrest⟩ := hp.follow_cons_iff.1 hq
    have hnext : p.next.2 = p.visit b := by rw [hp.next_eq_beat_iff.2 ⟨hdestination, hsteps, rfl⟩]
    have hfollow := ih (h.visit ha henters hdestination) (hp.visit b) hrest
    rwa [entriesAlong, hnext, ← Nat.add_assoc]

/-- Where the first beat comes next, and no loop leads there, the gongan is ready. -/
theorem ready (h : Phase a g times entries p) (ha : PlaysThrough a g times)
    (hdestination : p.destination? = some g.firstBeat) (hloop : p.loopTarget? = none) : Ready a g times entries p := by
  cases h with
  | outside hready haway => exact hready
  | inside round b hinside =>
    have hbound := hinside.bound
    by_cases hb : b = g.lastBeat
    · rw [hinside.loopTarget?_eq ha] at hloop
      refine hinside.ready hb ?_
      by_contra hround
      rw [if_pos ⟨hb, by omega⟩] at hloop
      cases hloop
    · rw [hinside.destination?_of_ne_last ha hb, Option.some.injEq] at hdestination
      have hstart := ((ha.placed.mem_beats_iff ha.mem).1 hinside.beat).1
      lia

end Phase

end Performance

/-- Where all accepted jumps into a gongan go to its first beat, no jump leads to another one of its beats. -/
theorem Score.arrange_entersFirst {s : Score} {settings : Settings} {a : Arrangement} {ds : List (Gongan × Directive)}
    (hs : s.IsPlaced) (h : s.arrange settings = .ok a) (hds : s.acceptedDirectives settings = .ok ds) {g : Gongan}
    (hg : g ∈ s.gongans.toList) (henter : ∀ b t, (b, t) ∈ s.jumpsIn ds → t ∈ g.beats → t = g.firstBeat) :
    a.performance.EntersFirst g := by
  intro b key t htarget hmem
  rcases (Score.arrange_jump_isSetUp h hds b).targets key (some t) htarget with ⟨-, hnext⟩ | ⟨t', ht', hjump⟩
  · have hb : b < s.beats.size := by
      by_contra hout
      simp [Score.next?, hout] at hnext
    rw [hs.next?_eq hb] at hnext
    split at hnext
    · obtain rfl := Option.some.inj hnext
      have hbounds := (hs.mem_beats_iff hg).1 hmem
      rw [hs.mem_beats_iff hg]
      lia
    · cases hnext
  · obtain rfl := Option.some.inj ht'
    exact .inl (henter b t hjump hmem)

namespace Performance

/-- A loop is performed in full on every entry: whenever the first beat of its gongan is reached other than by the loop
itself, its beats follow in order as often as the loop says, each of them on one pass, which goes round in the cycle
of its jump from entry to entry; then comes what the jump of the last beat gives for its pass. The limit may stop
this at any point. -/
theorem loop_in_full {m : Manuscript} {s : Score} {settings : Settings} {a : Arrangement}
    {ds : List (Gongan × Directive)} {g : Gongan} {count : UInt32} (hs : m.toScore = .ok s)
    (ha : s.arrange settings = .ok a) (hds : s.acceptedDirectives settings = .ok ds) (hloop : (g, .loop count) ∈ ds)
    (hjumps : ∀ b t, (b, t) ∈ s.jumpsIn ds → (b ∈ g.beats → b = g.lastBeat) ∧ (t ∈ g.beats → t = g.firstBeat))
    (calls : List Call) (position? : Option Position) {before : List BeatId} {p : Performance}
    (hp : ((a.performance.after calls).reset position?).follow before = some p)
    (hnext : p.next.1 = .ok (some g.firstBeat)) (hentry : p.loopTarget? = none) :
    let entries := ((a.performance.after calls).reset position?).entriesAlong g.firstBeat before
    let pass (b : BeatId) := UInt32.ofNat (entries % (a.performance.jump b).counter.cycle.toNat + 1)
    let rounds := List.range' 1 count.toNat
    let beats := rounds.flatMap fun _ => g.beats
    let room := settings.maxSteps - before.length
    ∃ q, p.follow (beats.take room) = some q ∧
      (p.playedAlong (beats.take room)).map Played.flow =
        (rounds.flatMap fun k => g.beats.map fun b => (b, s.fullId b, pass b, UInt32.ofNat k)).take room ∧
      q.next.1 =
        if room < beats.length then .error (.stepLimit settings.maxSteps)
        else match (a.performance.jump g.lastBeat).targetOn? (pass g.lastBeat) with
          | none => .ok none
          | some b => if room = beats.length then .error (.stepLimit settings.maxSteps) else .ok (some b) := by
  intro entries pass rounds beats room
  have hplaced := Manuscript.toScore_isPlaced hs
  have hcomplete := Score.arrange_isComplete ha
  obtain ⟨hscore, hlimit⟩ := Score.arrange_score ha
  obtain ⟨hg, hrepeats⟩ := Score.repeats_eq_of_loop hplaced ha hds hloop
  have hplays := Score.arrange_playsThrough hplaced ha hds hg fun b t ht => (hjumps b t ht).1
  have henters := Score.arrange_entersFirst hplaced ha hds hg fun b t ht => (hjumps b t ht).2
  rw [hrepeats] at hplays
  have hstart := hcomplete.reset position?
  have hentries : entries = (a.performance.reset position?).entriesAlong g.firstBeat before := by
    rw [← hcomplete.reset_after calls position?]
  rw [hcomplete.reset_after] at hp
  obtain ⟨hpSteps, hpLimit, hpRoom⟩ := hstart.follow_steps hp
  have hpComplete := (hstart.follow_invariant (I := fun _ => True) (fun _ _ _ _ => trivial) trivial hp).1
  have hphase : Phase a.performance g count.toNat entries p := by
    have hfollow := Phase.follow (.outside (hcomplete.ready_reset g _ position?) nofun) hstart hplays henters hp
    rwa [Nat.zero_add, ← hentries] at hfollow
  obtain ⟨hdestination, hsteps, -⟩ := hpComplete.next_eq_beat_iff.1 (Prod.ext hnext rfl)
  obtain ⟨hleads, hinside, hflow⟩ := (hphase.ready hplays hdestination hentry).leads hplays hdestination
  have hpass (b : BeatId) : Performance.pass a.performance b (entries + 1) = pass b := by
    rw [Performance.pass, Counter.valueAfter, if_neg (Nat.succ_ne_zero entries), Nat.add_sub_cancel]
  have hflowOf (k : Nat) : flowOf a.performance (entries + 1) k = fun b => (b, s.fullId b, pass b, UInt32.ofNat k) := by
    funext b
    rw [flowOf, hpass, hscore]
  have hbehind := hinside.destination?_eq hplays
  rw [if_neg fun heq => Nat.lt_irrefl _ heq.2, hpass] at hbehind
  have hmax : p.maxSteps = settings.maxSteps := hpLimit.trans hlimit
  have hroom : p.steps + room = p.maxSteps := by
    have hcount : p.steps = 0 + before.length := hpSteps
    omega
  obtain ⟨q, hq, hplayed, hend⟩ := hpComplete.follow_take hleads (by simp [hinside.cursor]) _ hroom
  rw [hmax, hbehind] at hend
  refine ⟨q, hq, ?_, hend⟩
  rw [hplayed, List.map_take, hflow]
  simp only [hflowOf, rounds]

/-- A loop that a goto comes back to, and that is left for another beat on its second pass. -/
theorem loop_in_full_on_second_entry :
    let m : Manuscript := { gongans := [
      { directives := [.label "A" 1, .loop 2, .goto "C" none [2] (some 3)], beats := [{}, {}] },
      { directives := [.goto "A" none [1] none], beats := [{}] },
      { directives := [.label "C" 1], beats := [{}] }] }
    ∃ s a ds g p, m.toScore = .ok s ∧ s.arrange {} = .ok a ∧ s.acceptedDirectives {} = .ok ds ∧ (g, .loop 2) ∈ ds ∧
      (∀ b t, (b, t) ∈ s.jumpsIn ds → (b ∈ g.beats → b = g.lastBeat) ∧ (t ∈ g.beats → t = g.firstBeat)) ∧
      ((a.performance.after [.next]).reset none).follow [0, 1, 0, 1, 2] = some p ∧
      p.next.1 = .ok (some g.firstBeat) ∧ p.loopTarget? = none ∧
      ∃ q, p.follow [0, 1, 0, 1] = some q ∧
        (p.playedAlong [0, 1, 0, 1]).map Played.flow =
          [(0, s.fullId 0, 2, 1), (1, s.fullId 1, 2, 1), (0, s.fullId 0, 2, 2), (1, s.fullId 1, 2, 2)] ∧
        q.next.1 = .ok (some 3) := by
  intro m
  have harrangement : ∃ s a, m.toScore = .ok s ∧ s.arrange {} = .ok a ∧
      ((s.acceptedDirectives {}).toOption.any fun ds =>
        ds.any (fun x => x.2 = .loop 2 && x.1.beats = [0, 1]) && s.jumpsIn ds = [(1, 3), (2, 0)]) ∧
      ((((a.performance.after [.next]).reset none).follow [0, 1, 0, 1, 2]).any fun p =>
        p.next.1.toOption = some (some 0) && p.loopTarget? = none) ∧
      ((a.performance.after [.next]).reset none).entriesAlong 0 [0, 1, 0, 1, 2] = 1 ∧
      (a.performance.jump 0).counter.cycle = 99 ∧ (a.performance.jump 1).counter.cycle = 3 ∧
      (a.performance.jump 1).targetOn? 2 = some 3 :=
    Manuscript.exists_arrangement (by decide +kernel)
  obtain ⟨s, a, hs, ha, haccepted, hfollow, hentries, hcycle, hcycle', htarget⟩ := harrangement
  obtain ⟨ds, hds, hchecked⟩ := (Option.any_eq_true _ _).1 haccepted
  obtain ⟨p, hp, hnext⟩ := (Option.any_eq_true _ _).1 hfollow
  simp only [Bool.and_eq_true, List.any_eq_true, decide_eq_true_eq] at hchecked hnext
  obtain ⟨⟨⟨g, d⟩, hloop, rfl, hbeats⟩, hjumpsIn⟩ := hchecked
  have hbeats : g.beats = [0, 1] := hbeats
  have hfirst : g.firstBeat = 0 := by rw [Gongan.firstBeat, hbeats]; rfl
  have hlast : g.lastBeat = 1 := by rw [Gongan.lastBeat, hbeats]; rfl
  have hjumps : ∀ b t, (b, t) ∈ s.jumpsIn ds →
      (b ∈ g.beats → b = g.lastBeat) ∧ (t ∈ g.beats → t = g.firstBeat) := by
    rw [hjumpsIn, hbeats, hfirst, hlast]
    simp only [List.mem_cons, List.not_mem_nil, Prod.mk.injEq, or_false]
    rintro b t (⟨rfl, rfl⟩ | ⟨rfl, rfl⟩) <;> simp
  have hreached : p.next.1 = .ok (some g.firstBeat) := by
    rw [hfirst]
    exact toOption_eq_some_iff.1 hnext.1
  have hfull := loop_in_full hs ha (toOption_eq_some_iff.1 hds) hloop hjumps [.next] none hp hreached hnext.2
  simp only [hfirst, hlast, hbeats, hentries] at hfull
  have hrounds : (List.range' 1 (2 : UInt32).toNat).flatMap (fun _ => [0, 1]) = [0, 1, 0, 1] := rfl
  have hall : [0, 1, 0, 1].take (100000 - [0, 1, 0, 1, 2].length) = [0, 1, 0, 1] := rfl
  have hpasses : (1 % (99 : UInt32).toNat + 1, 1 % (3 : UInt32).toNat + 1) = (2, 2) := rfl
  obtain ⟨hpass, hpass'⟩ := Prod.mk.inj hpasses
  have hthree : UInt32.ofNat 2 = 2 := rfl
  rw [hrounds, hall] at hfull
  obtain ⟨q, hq, hplayed, hend⟩ := hfull
  refine ⟨s, a, ds, g, p, hs, ha, toOption_eq_some_iff.1 hds, hloop, hjumps, hp, hreached, hnext.2, q, hq, ?_, ?_⟩
  · rw [hplayed]
    simp only [List.map_cons, List.map_nil, hcycle, hcycle', hpass, hpass']
    rfl
  · rw [hend, hcycle', hpass', hthree, htarget]
    rfl

end Performance

end Gamelan
