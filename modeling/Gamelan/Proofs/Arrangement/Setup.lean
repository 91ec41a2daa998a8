import Gamelan.Proofs.Arrangement.Refused
import Gamelan.Proofs.Performance.Beginning

namespace Gamelan

open Arrangement

/-- The jumps that a directive sets up, each one from a beat to another one, if its beats and labels exist. -/
def Score.jumpsOf (s : Score) (g : Gongan) : Directive → List (BeatId × BeatId)
  | .goto label fromBeat? _ _ =>
    ((g.beatAt? (fromBeat?.getD g.beats.length)).bind fun b => (s.labels.get? label).map (b, ·)).toList
  | .sequence names =>
    let beats := names.filterMap s.labels.get?
    (beats.zip beats.tail).map fun (a, b) => (s.lastBeatOf a, b)
  | _ => []

/-- The jumps of directives. -/
def Score.jumpsIn (s : Score) (ds : List (Gongan × Directive)) : List (BeatId × BeatId) :=
  ds.flatMap fun (g, d) => s.jumpsOf g d

/-- How often a gongan is played each time: as its loop says, and once without one. -/
def Arrangement.repeats (ds : List (Gongan × Directive)) (g : Gongan) : Nat :=
  (ds.findSome? fun (h, d) =>
    match d with
    | .loop count => if h.id = g.id then some count.toNat else none
    | _ => none).getD 1

theorem Jump.target?_set (j : Jump) (key key' : PassKey) (target : Target) :
    (j.set key target).target? key' = if key' = key then some target else j.target? key' := by
  cases key with
  | pass n =>
    cases key' with
    | pass n' => simp [set, target?, SortedMap.get?_insert]
    | otherwise => rfl
  | otherwise =>
    cases key' with
    | pass n' => rfl
    | otherwise => rfl

/-- What directives make of the jump of a beat: it leads to the next beat of the score or where the directives
lead, and without one it is as it was. -/
structure Jump.IsSetUp (s : Score) (ds : List (Gongan × Directive)) (b : BeatId) (j : Jump) : Prop where
  cycle : 0 < j.counter.cycle
  targets : ∀ key target, j.target? key = some target →
    (key = .otherwise ∧ target = s.next? b) ∨ ∃ t, target = some t ∧ (b, t) ∈ s.jumpsIn ds
  straight : (∀ t, (b, t) ∉ s.jumpsIn ds) → j = .straight (s.next? b)

namespace Jump.IsSetUp

variable {s : Score} {ds : List (Gongan × Directive)} {b t : BeatId} {j : Jump}

theorem plain (s : Score) (ds : List (Gongan × Directive)) (b : BeatId) :
    IsSetUp s ds b (.straight (s.next? b)) where
  cycle := show 0 < Jump.defaultCycle by decide
  targets := by
    intro key target h
    cases key with
    | pass n => cases h
    | otherwise => exact .inl ⟨rfl, (Option.some.inj h).symm⟩
  straight _ := rfl

theorem set (h : IsSetUp s ds b j) (ht : (b, t) ∈ s.jumpsIn ds) (key : PassKey) :
    IsSetUp s ds b (j.set key (some t)) where
  cycle := by cases key <;> exact h.cycle
  targets := by
    intro key' target htarget
    rw [Jump.target?_set] at htarget
    split at htarget
    · obtain rfl := Option.some.inj htarget
      exact .inr ⟨t, rfl, ht⟩
    · exact h.targets key' target htarget
  straight hnone := absurd ht (hnone t)

theorem setCycle (h : IsSetUp s ds b j) (ht : (b, t) ∈ s.jumpsIn ds) {cycle : UInt32} (hcycle : cycle ≠ 0) :
    IsSetUp s ds b (j.setCycle cycle) where
  cycle := UInt32.pos_iff_ne_zero.2 hcycle
  targets key target htarget := h.targets key target (by cases key <;> exact htarget)
  straight hnone := absurd ht (hnone t)

theorem foldl_set (h : IsSetUp s ds b j) (ht : (b, t) ∈ s.jumpsIn ds) (passes : List UInt32) :
    IsSetUp s ds b (passes.foldl (fun j n => j.set (.pass n) (some t)) j) := by
  induction passes generalizing j with
  | nil => exact h
  | cons n passes ih => exact ih (h.set ht (.pass n))

end Jump.IsSetUp

namespace Arrangement

/-- What an accepted directive sets up, and no directive undoes, holds after all directives. -/
theorem applyAll_of_verdict {σ : Type} {J : σ → Prop} {step : σ → Gongan → Directive → Except DirectiveFault σ} {s : σ}
    {ds : List (Gongan × Directive)} {i : Nat} {x : Gongan × Directive} (hx : ds[i]? = some x)
    (hverdict : (verdicts step s ds)[i]? = some none) (hset : ∀ t u, step t x.1 x.2 = .ok u → J u)
    (hkeep : ∀ t g d u, J t → step t g d = .ok u → J u) : J (applyAll step s ds).1 := by
  induction ds generalizing s i with
  | nil => cases hx
  | cons head rest ih =>
    obtain ⟨g, d⟩ := head
    rw [verdicts] at hverdict
    rw [applyAll]
    cases h : step s g d with
    | error fault =>
      rw [h] at hverdict
      cases i with
      | zero => cases hverdict
      | succ i => exact ih hx hverdict
    | ok t =>
      rw [h] at hverdict
      cases i with
      | zero =>
        obtain rfl := Option.some.inj hx
        exact applyAll_invariant rest (fun t g d u _ => hkeep t g d u) (hset s t h)
      | succ i => exact ih hx hverdict

end Arrangement

namespace Score

variable {s : Score} {settings : Settings} {a : Arrangement} {ds : List (Gongan × Directive)}

/-- What the plain performance has and every accepted directive keeps holds of an arrangement. -/
theorem arrange_invariant_of_accepted {I : Performance → Prop} (h : s.arrange settings = .ok a)
    (hds : s.acceptedDirectives settings = .ok ds) (hplain : ∀ p, s.plain settings = .ok p → I p)
    (hdirect : ∀ p q g d, (g, d) ∈ ds → p.score = s → I p → directStep settings s.labels p g d = .ok q → I q)
    (hsequence : ∀ p q g d, (g, d) ∈ ds → p.score = s → I p → sequenceStep s.labels p g d = .ok q → I q) :
    I a.performance := by
  obtain ⟨p, hp, ha, -⟩ := arrange_eq_ok_iff.1 h
  have hscore := plain_score hp
  have hkept : (s.direct settings p).score = s ∧ I (s.direct settings p) := by
    refine applyAll_invariant_of_verdicts (I := fun q => q.score = s ∧ I q) ?_ ⟨hscore, hplain p hp⟩
    rintro i ⟨g, d⟩ q r hx hverdict ⟨hq, hI⟩ hr
    refine ⟨(directStep_score hr).trans hq, ?_⟩
    by_cases hstage : d.stage = .direct
    · refine hdirect q r g d ((mem_acceptedDirectives_iff hp hds).2 ⟨i, hx, ?_⟩) hq hI hr
      rw [hstage]
      exact hverdict
    · rw [directStep_of_stage_ne hstage] at hr
      exact Except.ok.inj hr ▸ hI
  have hall : (s.arranged settings p).score = s ∧ I (s.arranged settings p) := by
    refine applyAll_invariant_of_verdicts (I := fun q => q.score = s ∧ I q) ?_ hkept
    rintro i ⟨g, d⟩ q r hx hverdict ⟨hq, hI⟩ hr
    refine ⟨(sequenceStep_score hr).trans hq, ?_⟩
    by_cases hstage : d.stage = .sequences
    · refine hsequence q r g d ((mem_acceptedDirectives_iff hp hds).2 ⟨i, hx, ?_⟩) hq hI hr
      rw [hstage]
      exact hverdict
    · rw [sequenceStep_of_stage_ne hstage] at hr
      exact Except.ok.inj hr ▸ hI
  rw [ha]
  exact hall.2

/-- The links of a sequence are jumps between its beats. -/
theorem mem_zip_of_links {p : Performance} {taken : SortedMap BeatId UInt32} {beats : List BeatId} {ls : List Link}
    (hls : links p taken beats = .ok ls) {l : Link} (hl : l ∈ ls) :
    (l.fromBeat, l.toBeat) ∈ (beats.zip beats.tail).map fun (a, b) => (p.score.lastBeatOf a, b) := by
  induction beats generalizing taken ls with
  | nil =>
    obtain rfl := Except.ok.inj hls
    cases hl
  | cons a beats ih =>
    cases beats with
    | nil =>
      obtain rfl := Except.ok.inj hls
      cases hl
    | cons b rest =>
      obtain ⟨l', more, hfrom, hto, -, -, hmore, rfl⟩ := links_cons_cons_eq_ok_iff.1 hls
      rcases List.mem_cons.1 hl with rfl | hl
      · rw [hfrom, hto]
        exact .head _
      · exact .tail _ (ih hmore hl)

theorem mem_jumpsOf_sequence {p : Performance} {g : Gongan} {names : List String} {beats : List BeatId}
    {ls : List Link} (hp : p.score = s) (hbeats : names.mapM (resolve s.labels) = .ok beats)
    (hls : links p .empty beats = .ok ls) {l : Link} (hl : l ∈ ls) :
    (l.fromBeat, l.toBeat) ∈ s.jumpsOf g (.sequence names) := by
  have hresolved : names.filterMap s.labels.get? = beats := by
    have hmap := congrArg (List.filterMap id) (mapM_resolve_eq_ok_iff.1 hbeats)
    simpa [List.filterMap_map] using hmap
  rw [jumpsOf, hresolved, ← hp]
  exact mem_zip_of_links hls hl

theorem mem_jumpsIn {g : Gongan} {d : Directive} {x : BeatId × BeatId} (hd : (g, d) ∈ ds) (hx : x ∈ s.jumpsOf g d) :
    x ∈ s.jumpsIn ds :=
  List.mem_flatMap.2 ⟨(g, d), hd, hx⟩

section Steps

variable {p q : Performance} {g : Gongan} {d : Directive} (hd : (g, d) ∈ ds)
  (hI : ∀ b, (p.jump b).IsSetUp s ds b)

include hI in
theorem isSetUp_modifyJump {e : BeatId} {f : Jump → Jump} (hf : (f (p.jump e)).IsSetUp s ds e) (b : BeatId) :
    ((p.modifyJump e f).jump b).IsSetUp s ds b := by
  rw [Performance.jump_modifyJump]
  split
  next heq => exact heq.1 ▸ hf
  · exact hI b

include hd hI

theorem isSetUp_directStep (hq : directStep settings s.labels p g d = .ok q) (b : BeatId) :
    (q.jump b).IsSetUp s ds b := by
  cases d with
  | goto label fromBeat? passes cycle? =>
    obtain ⟨t, e, ht, he, hcycle, -, rfl⟩ := addGoto_eq_ok_iff.1 hq
    have hjump : (e, t) ∈ s.jumpsIn ds := mem_jumpsIn hd (by simp [jumpsOf, ht, he])
    refine isSetUp_modifyJump hI ?_ b
    have htargets : ((if passes.isEmpty then (p.jump e).set .otherwise (some t)
        else passes.foldl (fun j n => j.set (.pass n) (some t)) (p.jump e)) : Jump).IsSetUp s ds e := by
      split
      · exact (hI e).set hjump .otherwise
      · exact (hI e).foldl_set hjump passes
    cases cycle? with
    | none => exact htargets
    | some cycle => exact htargets.setCycle hjump fun hzero => hcycle (congrArg some hzero)
  | loop count =>
    obtain ⟨-, -, rfl⟩ := addLoop_eq_ok_iff.1 hq
    exact hI b
  | label name beat => exact Except.ok.inj hq ▸ hI b
  | «sequence» names => exact Except.ok.inj hq ▸ hI b
  | tempo value extent => exact congrArg (·.jump b) (directStep_bare_of_isChange rfl hq) ▸ hI b
  | dynamics mark extent positions => exact congrArg (·.jump b) (directStep_bare_of_isChange rfl hq) ▸ hI b

theorem isSetUp_sequenceStep (hscore : p.score = s) (hq : sequenceStep s.labels p g d = .ok q) (b : BeatId) :
    (q.jump b).IsSetUp s ds b := by
  cases d with
  | «sequence» names =>
    obtain ⟨beats, ls, hbeats, hls, rfl⟩ := addSequence_eq_ok_iff.1 hq
    have hjumps : ∀ l ∈ ls, (l.fromBeat, l.toBeat) ∈ s.jumpsIn ds := fun l hl =>
      mem_jumpsIn hd (mem_jumpsOf_sequence hscore hbeats hls hl)
    clear hls hq
    induction ls generalizing p with
    | nil => exact hI b
    | cons l ls ih =>
      have hset := isSetUp_modifyJump hI (f := (·.set (.pass l.pass) (some l.toBeat)))
        ((hI l.fromBeat).set (hjumps l (.head _)) (.pass l.pass))
      exact ih hset hscore fun l' hl' => hjumps l' (.tail _ hl')
  | _ => exact Except.ok.inj hq ▸ hI b

end Steps

/-- The jumps of an arrangement are set up by the accepted directives. -/
theorem arrange_jump_isSetUp (h : s.arrange settings = .ok a) (hds : s.acceptedDirectives settings = .ok ds) :
    ∀ b, (a.performance.jump b).IsSetUp s ds b := by
  refine arrange_invariant_of_accepted (I := fun p => ∀ b, (p.jump b).IsSetUp s ds b) h hds ?_ ?_ ?_
  · intro p hp b
    rw [plain_jump hp]
    exact .plain s ds b
  · intro p q g d hd _ hI hq
    exact isSetUp_directStep hd hI hq
  · intro p q g d hd hscore hI hq
    exact isSetUp_sequenceStep hd hI hscore hq

theorem lt_size_of_mem_jumpsIn (hs : s.IsPlaced) {b t : BeatId} (h : (b, t) ∈ s.jumpsIn ds) : t < s.beats.size := by
  obtain ⟨⟨g, d⟩, -, hjump⟩ := List.mem_flatMap.1 h
  cases d with
  | goto label fromBeat? passes cycle? =>
    obtain ⟨e, -, ht⟩ := Option.bind_eq_some_iff.1 (Option.mem_toList.1 hjump)
    obtain ⟨t', hlabel, heq⟩ := Option.map_eq_some_iff.1 ht
    obtain rfl := congrArg Prod.snd heq
    exact labels_lt hs hlabel
  | «sequence» names =>
    obtain ⟨⟨c, t'⟩, hzip, heq⟩ := List.mem_map.1 hjump
    obtain rfl := congrArg Prod.snd heq
    obtain ⟨name, -, hlabel⟩ := List.mem_filterMap.1 (List.mem_of_mem_tail (List.of_mem_zip hzip).2)
    exact labels_lt hs hlabel
  | _ => cases hjump

theorem exists_acceptedDirectives (h : s.arrange settings = .ok a) : ∃ ds, s.acceptedDirectives settings = .ok ds := by
  obtain ⟨p, hp, -⟩ := arrange_eq_ok_iff.1 h
  obtain ⟨faults, hfaults, -⟩ := exists_faults hp
  exact ⟨_, by rw [acceptedDirectives, hfaults, Except.map]⟩

/-- The jumps of an arrangement stay in the score. -/
theorem arrange_target_lt (hs : s.IsPlaced) (h : s.arrange settings = .ok a) {b t : BeatId} {key : PassKey}
    (ht : (a.performance.jump b).target? key = some (some t)) : t < s.beats.size := by
  obtain ⟨ds, hds⟩ := exists_acceptedDirectives h
  rcases (arrange_jump_isSetUp h hds b).targets key (some t) ht with ⟨-, hnext⟩ | ⟨t', ht', hjump⟩
  · have hb : b < s.beats.size := by
      by_contra hout
      simp [next?, hout] at hnext
    rw [hs.next?_eq hb] at hnext
    split at hnext
    · obtain rfl := Option.some.inj hnext
      assumption
    · cases hnext
  · obtain rfl := Option.some.inj ht'
    exact lt_size_of_mem_jumpsIn hs hjump

/-- A gongan takes one loop, and no other directive changes it. -/
theorem directStep_loops {labels : Labels} {p q : Performance} {g : Gongan} {d : Directive}
    (hq : directStep settings labels p g d = .ok q) :
    q.loops = p.loops ∨ ∃ count, d = .loop count ∧ count ≠ 0 ∧ p.loops.get? g.id = none ∧
      q.loops = p.loops.insert g.id (.ofCount g.lastBeat g.firstBeat count) := by
  cases d with
  | goto label fromBeat? passes cycle? =>
    obtain ⟨t, e, -, -, -, -, rfl⟩ := addGoto_eq_ok_iff.1 hq
    exact .inl rfl
  | loop count =>
    obtain ⟨hcount, hnone, rfl⟩ := addLoop_eq_ok_iff.1 hq
    exact .inr ⟨count, rfl, hcount, by simpa [Performance.hasLoop, SortedMap.contains] using hnone, rfl⟩
  | label name beat => exact .inl (congrArg (·.loops) (Except.ok.inj hq).symm)
  | «sequence» names => exact .inl (congrArg (·.loops) (Except.ok.inj hq).symm)
  | tempo value extent => exact .inl (congrArg (·.loops) (directStep_bare_of_isChange rfl hq))
  | dynamics mark extent positions => exact .inl (congrArg (·.loops) (directStep_bare_of_isChange rfl hq))

theorem sequenceStep_loops {labels : Labels} {p q : Performance} {g : Gongan} {d : Directive}
    (hq : sequenceStep labels p g d = .ok q) : q.loops = p.loops :=
  sequenceStep_invariant (I := fun q => q.loops = p.loops) (fun _ _ _ _ h => h) rfl hq

/-- The loops of an arrangement are those of the accepted directives. -/
theorem arrange_loops_iff (h : s.arrange settings = .ok a) (hds : s.acceptedDirectives settings = .ok ds) {n : Nat}
    {l : Loop} : a.performance.loops.get? n = some l ↔
      ∃ g count, (g, .loop count) ∈ ds ∧ g.id = n ∧ l = .ofCount g.lastBeat g.firstBeat count := by
  constructor
  · refine arrange_invariant_of_accepted (I := fun p => ∀ n l, p.loops.get? n = some l →
      ∃ g count, (g, .loop count) ∈ ds ∧ g.id = n ∧ l = .ofCount g.lastBeat g.firstBeat count) h hds ?_ ?_ ?_ n l
    · intro p hp n l hl
      rw [plain_loops hp] at hl
      cases hl
    · intro p q g d hd _ hI hq n l hl
      rcases directStep_loops hq with hsame | ⟨count, rfl, -, -, hinsert⟩
      · exact hI n l (hsame ▸ hl)
      · rw [hinsert, SortedMap.get?_insert] at hl
        split at hl
        next hn => exact ⟨g, count, hd, hn.symm, (Option.some.inj hl).symm⟩
        · exact hI n l hl
    · intro p q g d _ _ hI hq n l hl
      exact hI n l (sequenceStep_loops hq ▸ hl)
  · rintro ⟨g, count, hd, rfl, rfl⟩
    obtain ⟨p, hp, ha, -⟩ := arrange_eq_ok_iff.1 h
    obtain ⟨i, hx, hverdict⟩ := (mem_acceptedDirectives_iff hp hds).1 hd
    have hdirect : (s.direct settings p).loops.get? g.id = some (.ofCount g.lastBeat g.firstBeat count) := by
      refine applyAll_of_verdict (J := fun q => q.loops.get? g.id = some (.ofCount g.lastBeat g.firstBeat count))
        hx hverdict ?_ ?_
      · intro q r hr
        obtain ⟨-, -, rfl⟩ := addLoop_eq_ok_iff.1 hr
        exact SortedMap.get?_insert_self _ _ _
      · intro q g' d r hq hr
        rcases directStep_loops hr with hsame | ⟨count', -, -, hnone, hinsert⟩
        · rw [hsame, hq]
        · rw [hinsert, SortedMap.get?_insert, if_neg, hq]
          intro hg
          rw [← hg, hq] at hnone
          cases hnone
    have hloops : (s.arranged settings p).loops = (s.direct settings p).loops :=
      applyAll_invariant (I := fun q => q.loops = (s.direct settings p).loops) _
        (fun q g' d r _ hq hr => (sequenceStep_loops hr).trans hq) rfl
    rw [ha, hloops, hdirect]

/-- The loop of a gongan plays it as often as the accepted directive says. -/
theorem arrange_loops_repeats (hs : s.IsPlaced) (h : s.arrange settings = .ok a)
    (hds : s.acceptedDirectives settings = .ok ds) {g : Gongan} (hg : g ∈ s.gongans.toList) :
    a.performance.loops.get? g.id = none ∧ repeats ds g = 1 ∨
      ∃ count, (g, .loop count) ∈ ds ∧ repeats ds g = count.toNat ∧ 0 < count ∧
        a.performance.loops.get? g.id = some (.ofCount g.lastBeat g.firstBeat count) := by
  rw [repeats]
  cases hfind : ds.findSome? fun (h, d) =>
      match d with
      | .loop count => if h.id = g.id then some count.toNat else none
      | _ => none with
  | none =>
    refine .inl ⟨Option.eq_none_iff_forall_ne_some.2 fun l hl => ?_, rfl⟩
    obtain ⟨g', count, hd, hid, -⟩ := (arrange_loops_iff h hds).1 hl
    have hskip := List.findSome?_eq_none_iff.1 hfind _ hd
    simp [hid] at hskip
  | some n =>
    obtain ⟨⟨g', d⟩, hd, hn⟩ := List.exists_of_findSome?_eq_some hfind
    cases d with
    | loop count =>
      simp only [Option.ite_none_right_eq_some, Option.some.injEq] at hn
      obtain ⟨hid, rfl⟩ := hn
      obtain ⟨p, hp, -⟩ := arrange_eq_ok_iff.1 h
      obtain ⟨i, hx, -⟩ := (mem_acceptedDirectives_iff hp hds).1 hd
      obtain rfl := hs.gongan_unique (mem_gongans_of_mem_directives (List.mem_of_getElem? hx)) hg hid
      have hloop := (arrange_loops_iff h hds).2 ⟨g', count, hd, rfl, rfl⟩
      exact .inr ⟨count, hd, rfl, ((arrange_isFresh h).counters.loops _ _ hloop).cycle, hloop⟩
    | _ => cases hn

/-- An accepted loop is the one of its gongan. -/
theorem repeats_eq_of_loop (hs : s.IsPlaced) (h : s.arrange settings = .ok a)
    (hds : s.acceptedDirectives settings = .ok ds) {g : Gongan} {count : UInt32} (hd : (g, .loop count) ∈ ds) :
    g ∈ s.gongans.toList ∧ repeats ds g = count.toNat := by
  obtain ⟨p, hp, -⟩ := arrange_eq_ok_iff.1 h
  obtain ⟨i, hx, -⟩ := (mem_acceptedDirectives_iff hp hds).1 hd
  have hg := mem_gongans_of_mem_directives (List.mem_of_getElem? hx)
  refine ⟨hg, ?_⟩
  have hloop := (arrange_loops_iff h hds).2 ⟨g, count, hd, rfl, rfl⟩
  rcases arrange_loops_repeats hs h hds hg with ⟨hnone, -⟩ | ⟨count', -, hrepeats, -, hloop'⟩
  · rw [hnone] at hloop
    cases hloop
  · rw [hloop] at hloop'
    obtain rfl : count = count' := congrArg (·.counter.cycle) (Option.some.inj hloop')
    exact hrepeats

end Score

end Gamelan
