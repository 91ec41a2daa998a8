import Gamelan.Proofs.Arrangement.Setup
import Gamelan.Proofs.Performance.Repetition
import Mathlib.Algebra.Ring.Nat

namespace Gamelan

open Arrangement

/-- Whether a directive lets the flow jump: a goto or a sequence. -/
def Directive.isJump : Directive → Bool
  | goto .. | «sequence» .. => true
  | _ => false

/-- The beats of a score with its loops and nothing else: each gongan in its turn, round by round, and all beats on
their first pass. -/
def Score.loopedFlow (s : Score) (ds : List (Gongan × Directive)) : List (BeatId × String × UInt32 × UInt32) :=
  s.gongans.toList.flatMap fun g =>
    (List.range' 1 (repeats ds g)).flatMap fun k => g.beats.map fun b => (b, s.fullId b, 1, UInt32.ofNat k)

namespace Score

variable {s : Score} {settings : Settings} {a : Arrangement} {ds : List (Gongan × Directive)}

/-- Gongans that no accepted jump leaves before their end are played from their first beat to their last. -/
theorem arrange_playsThrough (hs : s.IsPlaced) (h : s.arrange settings = .ok a)
    (hds : s.acceptedDirectives settings = .ok ds) {g : Gongan} (hg : g ∈ s.gongans.toList)
    (hleave : ∀ b t, (b, t) ∈ s.jumpsIn ds → b ∈ g.beats → b = g.lastBeat) :
    a.performance.PlaysThrough g (repeats ds g) := by
  have hscore := (arrange_score h).1
  have hset := arrange_jump_isSetUp h hds
  refine ⟨hscore ▸ hs, arrange_hasOwnLoops hs h, hscore ▸ hg, ?_, fun b _ => (hset b).cycle, ?_⟩
  · rcases arrange_loops_repeats hs h hds hg with hnone | ⟨count, -, hrepeats, hcount, hloop⟩
    · exact .inl hnone
    · exact .inr ⟨count, hrepeats, hcount, hloop⟩
  · intro b hb hlast
    have hend := ((hs.mem_beats_iff hg).1 hb).2
    have hsize := hs.lt_size_of_mem hg (hs.ends_mem hg).2
    rw [(hset b).straight fun t ht => hlast (hleave b t ht hb), hs.next?_eq (by lia), if_pos (by lia)]

theorem jumpsIn_eq_nil (hjumps : ∀ x ∈ ds, x.2.isJump = false) : s.jumpsIn ds = [] := by
  refine List.flatMap_eq_nil_iff.2 ?_
  rintro ⟨g, d⟩ hd
  have hkind := hjumps (g, d) hd
  cases d with
  | goto label fromBeat? passes cycle? => cases hkind
  | «sequence» names => cases hkind
  | _ => rfl

theorem firstBeat?_eq (s : Score) : s.firstBeat? = (List.range' 0 s.beats.size).head? := by
  rw [firstBeat?, List.head?_range']
  simp only [Array.isEmpty_iff_size_eq_zero]

theorem length_loopedFlow (s : Score) (ds : List (Gongan × Directive)) :
    (s.loopedFlow ds).length = (s.gongans.toList.map fun g => repeats ds g * g.beats.length).sum := by
  simp [loopedFlow, List.length_flatMap]

/-- Without loops every beat is played once, in the order of the score. -/
theorem loopedFlow_beats (hs : s.IsPlaced) (hloops : ∀ g count, (g, .loop count) ∉ ds) :
    (s.loopedFlow ds).map (·.1) = List.range s.beats.size := by
  have honce (g : Gongan) : repeats ds g = 1 := by
    rw [repeats, List.findSome?_eq_none_iff.2, Option.getD_none]
    rintro ⟨g', d⟩ hd
    cases d with
    | loop count => exact absurd hd (hloops g' count)
    | _ => rfl
  have hrow := hs.row
  rw [Array.length_toList] at hrow
  rw [List.range_eq_range', ← hrow]
  simp [loopedFlow, honce, List.map_flatMap, Function.comp_def]

end Score

namespace Performance

variable {a p : Performance}

/-- After a reset every gongan is ready for its first entry. -/
theorem IsComplete.ready_reset (ha : a.IsComplete) (g : Gongan) (times : Nat) (position? : Option Position) :
    Ready a g times 0 (a.reset position?) := by
  refine ⟨ha.reset position?, reset_reset a none position?, ?_, ?_⟩
  · intro l hl
    change (a.loops.mapValues Loop.reset).get? g.id = some l at hl
    rw [SortedMap.get?_mapValues] at hl
    obtain ⟨k, -, rfl⟩ := Option.map_eq_some_iff.1 hl
    rfl
  · intro b _
    rw [jump_reset, Nat.zero_sub, ite_self]
    rfl

/-- Gongans that lead from one to the next are played one after the other, each of them on its first entry. -/
theorem leads_gongans {s : Score} {times : Gongan → Nat} (hs : s.IsPlaced) (ha : a.score = s)
    (hjumps : ∀ b, a.jump b = .straight (s.next? b)) {gs : List Gongan} (hnodup : gs.Nodup)
    (hgs : ∀ g ∈ gs, a.PlaysThrough g (times g)) (start : Nat)
    (hrow : gs.flatMap (·.beats) = List.range' start (s.beats.size - start)) (hp : p.IsComplete)
    (hready : ∀ g ∈ gs, Ready a g (times g) 0 p)
    (hdestination : p.destination? = (gs.flatMap (·.beats)).head?) :
    p.Leads (gs.flatMap fun g => (List.range' 1 (times g)).flatMap fun _ => g.beats) ∧
      (p.visitAll (gs.flatMap fun g => (List.range' 1 (times g)).flatMap fun _ => g.beats)).destination? = none ∧
      (p.visited (gs.flatMap fun g => (List.range' 1 (times g)).flatMap fun _ => g.beats)).map Played.flow =
        gs.flatMap fun g => (List.range' 1 (times g)).flatMap fun k => g.beats.map (flowOf a 1 k) := by
  induction gs generalizing start p with
  | nil => exact ⟨trivial, hdestination, rfl⟩
  | cons g gs ih =>
    obtain ⟨hnotMem, hnodup⟩ := List.nodup_cons.1 hnodup
    have hg := hgs g (.head _)
    have hgmem : g ∈ s.gongans.toList := ha ▸ hg.mem
    rw [List.flatMap_cons] at hrow hdestination
    obtain ⟨n, hn, hown, hrest⟩ := List.range'_eq_append_iff.1 hrow.symm
    rw [← Nat.sub_add_eq, Nat.mul_one] at hrest
    have hhead := hs.head?_beats hgmem
    have hfirst : p.destination? = some g.firstBeat := by
      rw [hdestination, List.head?_append, hhead]
      rfl
    obtain ⟨hleads, hinside, hflow⟩ := (hready g (.head _)).leads hg hfirst
    generalize hbs : (List.range' 1 (times g)).flatMap (fun _ => g.beats) = bs at *
    have hready' : ∀ g' ∈ gs, Ready a g' (times g') 0 (p.visitAll bs) := by
      intro g' hg'
      have hplays := hgs g' (.tail _ hg')
      refine hp.visitAll_invariant (fun q b hb _ hq => hq.visit_of_notMem hplays fun hmem => hnotMem ?_)
        (hready g' (.tail _ hg'))
      have hg'mem : g' ∈ s.gongans.toList := ha ▸ hplays.mem
      rw [← hbs] at hb
      obtain ⟨-, -, hown'⟩ := List.mem_flatMap.1 hb
      rw [hs.gongan_unique hgmem hg'mem
        ((hs.gonganOf_of_mem hgmem hown').1.symm.trans (hs.gonganOf_of_mem hg'mem hmem).1)]
      exact hg'
    have hnext : (p.visitAll bs).destination? = (gs.flatMap (·.beats)).head? := by
      rw [hinside.destination?_eq hg, if_neg (fun heq => Nat.lt_irrefl _ heq.2), hjumps, hrest, List.head?_range']
      change s.next? g.lastBeat = _
      have hlast := hs.lastBeat_eq hgmem
      have hlength : g.beats.length = n := by rw [hown, List.length_range']
      have hstart : g.firstBeat = start := by
        rw [hown, List.head?_range'] at hhead
        split at hhead
        · cases hhead
        · exact (Option.some.inj hhead).symm
      rw [hs.next?_eq (hs.lt_size_of_mem hgmem (hs.ends_mem hgmem).2),
        show g.lastBeat + 1 = start + n by rw [hlast, hstart, hlength]]
      by_cases hmore : start + n < s.beats.size
      · rw [if_pos hmore, if_neg (by omega)]
      · rw [if_neg hmore, if_pos (by omega)]
    obtain ⟨hleads', hend, hflow'⟩ := ih hnodup (fun g' hg' => hgs g' (.tail _ hg')) _ hrest
      hinside.standing.complete hready' hnext
    rw [List.flatMap_cons, List.flatMap_cons, hbs, leads_append, visitAll_append, visited_append, List.map_append,
      hflow, hflow']
    exact ⟨⟨hleads, hleads'⟩, hend, rfl⟩

/-- A score with nothing but labels, loops and changes of tempo and dynamics is played gongan by gongan, each one as
often as its loop says, all beats on their first pass and in the repetition that they are played in. If that is more
than the limit allows, it is played as far as the limit goes, and the step at the limit fails. Without loops every beat
is played once. -/
theorem walk_loops {m : Manuscript} {s : Score} {settings : Settings} {a : Arrangement}
    {ds : List (Gongan × Directive)} (hs : m.toScore = .ok s) (ha : s.arrange settings = .ok a)
    (hds : s.acceptedDirectives settings = .ok ds) (hjumps : ∀ x ∈ ds, x.2.isJump = false) (calls : List Call)
    (position? : Option Position) :
    ((a.performance.after calls).walk position?).1.map (fun played => played.toList.map Played.flow) =
        (if (s.loopedFlow ds).length ≤ settings.maxSteps then .ok (s.loopedFlow ds)
        else .error (.stepLimit settings.maxSteps)) ∧
      (let p := (a.performance.after calls).reset position?
        let first := ((s.loopedFlow ds).map (·.1)).take settings.maxSteps
        ∃ q, p.follow first = some q ∧
          (p.playedAlong first).map Played.flow = (s.loopedFlow ds).take settings.maxSteps ∧
          q.next.1 =
            if settings.maxSteps < (s.loopedFlow ds).length then .error (.stepLimit settings.maxSteps) else .ok none) ∧
      (s.loopedFlow ds).length = (s.gongans.toList.map fun g => repeats ds g * g.beats.length).sum ∧
      ((∀ g count, (g, .loop count) ∉ ds) → (s.loopedFlow ds).map (·.1) = List.range s.beats.size) := by
  have hplaced := Manuscript.toScore_isPlaced hs
  have hcomplete := Score.arrange_isComplete ha
  obtain ⟨hscore, hlimit⟩ := Score.arrange_score ha
  have hnone := Score.jumpsIn_eq_nil (s := s) hjumps
  have hstraight (b : BeatId) : a.performance.jump b = .straight (s.next? b) :=
    (Score.arrange_jump_isSetUp ha hds b).straight fun t => by simp [hnone]
  have hrow := hplaced.row
  rw [Array.length_toList] at hrow
  have hnodup : s.gongans.toList.Nodup := by
    have hids : (s.gongans.toList.map (·.id)).Nodup := by
      rw [hplaced.ids]
      exact List.nodup_range'
    exact (List.pairwise_map.1 hids).imp fun hne heq => hne (congrArg (·.id) heq)
  have hdestination : (a.performance.reset position?).destination? =
      (s.gongans.toList.flatMap (·.beats)).head? := by
    change a.performance.score.firstBeat? = _
    rw [hscore, hrow, s.firstBeat?_eq]
  obtain ⟨hleads, hend, hflow⟩ := leads_gongans hplaced hscore hstraight hnodup
    (fun g hg => Score.arrange_playsThrough hplaced ha hds hg fun b t ht => by simp [hnone] at ht)
    0 hrow (hcomplete.reset position?) (fun g _ => hcomplete.ready_reset g _ position?) hdestination
  have hfirst (k : Nat) : flowOf a.performance 1 k = fun b => (b, s.fullId b, 1, UInt32.ofNat k) := by
    funext b
    simp [flowOf, hscore, pass, Counter.valueAfter]
  have hlooped : ((a.performance.reset position?).visited (s.gongans.toList.flatMap fun g =>
      (List.range' 1 (repeats ds g)).flatMap fun _ => g.beats)).map Played.flow = s.loopedFlow ds := by
    rw [hflow, Score.loopedFlow]
    simp only [hfirst]
  have hlength := congrArg List.length hlooped
  rw [List.length_map, length_visited] at hlength
  have hbeats := congrArg (List.map (·.1)) hlooped
  rw [List.map_map] at hbeats
  refine ⟨?_, ?_, s.length_loopedFlow ds, Score.loopedFlow_beats hplaced⟩
  · have hwalk := congrArg (·.map (·.map Played.flow)) (hcomplete.walk_of_leads hleads hend)
    rw [walk_congr (hcomplete.reset_after calls position?), ← hlimit, ← hlength, ← hlooped]
    refine Eq.trans ?_ (hwalk.trans ?_)
    · cases (a.performance.walk position?).1 <;> rfl
    · split <;> rfl
  · obtain ⟨q, hq, hplayed, hnext⟩ := (hcomplete.reset position?).follow_take hleads
      (visitAll_cursor _ _ (by simp [reset])) settings.maxSteps ((Nat.zero_add _).trans hlimit.symm)
    rw [hend, hlength] at hnext
    rw [hcomplete.reset_after calls position?, hbeats.symm.trans (map_beat_visited _ _)]
    refine ⟨q, hq, by rw [hplayed, ← hlooped, List.map_take], ?_⟩
    rwa [← hlimit] at hnext ⊢

/-- Loops of one and of several beats, a gongan without one, and a loop that is refused. -/
theorem walk_loops_of_three :
    let m : Manuscript := { gongans := [
      { directives := [.label "A" 1, .loop 3, .loop 2], beats := [{}] },
      { directives := [.goto "B" none [] none, .tempo 90 {}], beats := [{}, {}] },
      { directives := [.loop 2], beats := [{}, {}] }] }
    ∃ s a ds, m.toScore = .ok s ∧ s.arrange { maxSteps := 9 } = .ok a ∧
      s.acceptedDirectives { maxSteps := 9 } = .ok ds ∧ (∀ x ∈ ds, x.2.isJump = false) ∧
      (s.loopedFlow ds).length = 9 ∧
      ((a.performance.after [.next]).walk (some "gangsa")).1.map (fun played => played.toList.map Played.flow) =
        .ok (s.loopedFlow ds) := by
  intro m
  have harrangement : ∃ s a, m.toScore = .ok s ∧ s.arrange { maxSteps := 9 } = .ok a ∧
      (s.acceptedDirectives { maxSteps := 9 }).toOption.any fun ds =>
        ds.all (fun x => x.2.isJump = false) && (s.loopedFlow ds).length = 9 :=
    Manuscript.exists_arrangement (by decide +kernel)
  obtain ⟨s, a, hs, ha, haccepted⟩ := harrangement
  obtain ⟨ds, hds, hchecked⟩ := (Option.any_eq_true _ _).1 haccepted
  rw [Bool.and_eq_true, List.all_eq_true] at hchecked
  obtain ⟨hall, hlength⟩ := hchecked
  have hjumps : ∀ x ∈ ds, x.2.isJump = false := fun x hx => of_decide_eq_true (hall x hx)
  have hlength : (s.loopedFlow ds).length = 9 := of_decide_eq_true hlength
  have hwalk := (walk_loops hs ha (toOption_eq_some_iff.1 hds) hjumps [.next] (some "gangsa")).1
  rw [if_pos (Nat.le_of_eq hlength)] at hwalk
  exact ⟨s, a, ds, hs, ha, toOption_eq_some_iff.1 hds, hjumps, hlength, hwalk⟩

end Performance

end Gamelan
