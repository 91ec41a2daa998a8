import Gamelan.Proofs.Arrangement.Extensions
import Gamelan.Proofs.Arrangement.Setup
import Gamelan.Proofs.Performance.Lookups

namespace Gamelan

open Arrangement

namespace Checked

def createJump (p : Performance) (b : BeatId) : Option Performance := modifyJump p b id

/-- Takes a state through directives as long as their lookups find something. -/
def applyAll {σ : Type} (step : σ → Gongan → Directive → Option (Except DirectiveFault σ)) :
    σ → List (Gongan × Directive) → Option (σ × List Finding)
  | s, [] => some (s, [])
  | s, (g, d) :: rest => do
    match ← step s g d with
    | .ok s => applyAll step s rest
    | .error fault =>
      let (s, findings) ← applyAll step s rest
      return (s, (g.id, fault) :: findings)

/-- Both ends of an accepted goto are looked up. -/
def addGoto (labels : Labels) (p : Performance) (g : Gongan) (label : String) (fromBeat? : Option Nat)
    (passes : List UInt32) (cycle? : Option UInt32) : Option (Except DirectiveFault Performance) :=
  match resolve labels label with
  | .error fault => some (.error fault)
  | .ok target =>
    let number := fromBeat?.getD g.beats.length
    match g.beatAt? number with
    | none => some (.error (.gotoBeat label number))
    | some b =>
      if cycle? = some 0 then some (.error (.gotoCycle label))
      else
        let cycle := cycle?.getD Jump.defaultCycle
        match passes.find? fun n => n == 0 || cycle < n with
        | some pass => some (.error (.gotoPass label pass cycle))
        | none => do
          let q ← modifyJump p b fun j =>
            let j :=
              if passes.isEmpty then j.set .otherwise (some target)
              else passes.foldl (fun j n => j.set (.pass n) (some target)) j
            cycle?.elim j j.setCycle
          let _ ← p.score.beats[b]?
          let _ ← p.score.beats[target]?
          return .ok q

def addLoop (p : Performance) (g : Gongan) (count : UInt32) : Option (Except DirectiveFault Performance) :=
  if count = 0 then some (.error .loopCount)
  else if p.hasLoop g.id then some (.error .loopTwice)
  else do
    let last ← g.lastBeat?
    let first ← g.firstBeat?
    return .ok (p.setLoop g.id (.ofCount last first count))

def links (p : Performance) : SortedMap BeatId UInt32 → List BeatId → Option (Except DirectiveFault (List Link))
  | taken, a :: b :: rest => do
    let beat ← p.score.beats[a]?
    let g ← p.score.gongan? beat.gongan
    let fromBeat ← g.lastBeat?
    let jump ← jump p fromBeat
    match successor? ((taken.get? fromBeat).getD jump.maxPass) with
    | none => return .error .overflow
    | some pass =>
      if jump.counter.cycle < pass then
        let beat ← p.score.beats[fromBeat]?
        return .error (.sequencePass pass beat.fullId jump.counter.cycle)
      else
        let more ← links p (taken.insert fromBeat pass) (b :: rest)
        return more.map (⟨fromBeat, pass, b⟩ :: ·)
  | _, _ => some (.ok [])

/-- Both ends of a jump of a sequence are looked up. -/
def setLink (p : Performance) (l : Link) : Option Performance := do
  let q ← modifyJump p l.fromBeat (·.set (.pass l.pass) (some l.toBeat))
  let _ ← p.score.beats[l.toBeat]?
  return q

def addSequence (labels : Labels) (p : Performance) (names : List String) :
    Option (Except DirectiveFault Performance) :=
  match names.mapM (resolve labels) with
  | .error fault => some (.error fault)
  | .ok beats => do
    match ← links p .empty beats with
    | .error fault => return .error fault
    | .ok ls =>
      let q ← ls.foldlM setLink p
      return .ok q

/-- A change of tempo or dynamics looks nothing up by a number. -/
def directStep (settings : Settings) (labels : Labels) (p : Performance) (g : Gongan) :
    Directive → Option (Except DirectiveFault Performance)
  | .goto label fromBeat? passes cycle? => addGoto labels p g label fromBeat? passes cycle?
  | .loop count => addLoop p g count
  | d => some (Arrangement.directStep settings labels p g d)

def sequenceStep (labels : Labels) (p : Performance) (_ : Gongan) :
    Directive → Option (Except DirectiveFault Performance)
  | .sequence names => addSequence labels p names
  | _ => some (.ok p)

def arrange (s : Score) (settings : Settings) : Option (Except Error Arrangement) :=
  match Performance.ofScore s settings with
  | .error e => some (.error e)
  | .ok p => do
    let p ← (List.range s.beats.size).foldlM createJump p
    let ds := directives s
    let (labels, labelFindings) := Arrangement.applyAll labelStep .empty ds
    let (p, directFindings) ← applyAll (directStep settings labels) p ds
    let (p, sequenceFindings) ← applyAll (sequenceStep labels) p ds
    if sequenceFindings.any (·.2.isOverflow) then return .error .overflow
    return .ok ⟨p, labelFindings ++ directFindings ++ sequenceFindings⟩

end Checked

namespace Arrangement

/-- Directives find what they look up if each of them does in its turn. -/
theorem checked_applyAll {σ : Type} {I : σ → Prop} {step : σ → Gongan → Directive → Except DirectiveFault σ}
    (checked : σ → Gongan → Directive → Option (Except DirectiveFault σ)) (ds : List (Gongan × Directive))
    (hchecked : ∀ s g d, (g, d) ∈ ds → I s → checked s g d = some (step s g d))
    (hstep : ∀ s g d t, I s → step s g d = .ok t → I t) {s : σ} (hs : I s) :
    Checked.applyAll checked s ds = some (applyAll step s ds) := by
  induction ds generalizing s with
  | nil => rfl
  | cons head rest ih =>
    obtain ⟨g, d⟩ := head
    have hrest {t : σ} (ht : I t) : Checked.applyAll checked t rest = some (applyAll step t rest) :=
      ih (fun s g d hd => hchecked s g d (.tail _ hd)) ht
    rw [Checked.applyAll, applyAll, hchecked s g d (.head _) hs]
    simp only [Option.bind_eq_bind, Option.bind_some]
    cases h : step s g d with
    | ok t => exact hrest (hstep s g d t hs h)
    | error fault =>
      simp only
      rw [hrest hs]
      rfl

theorem checked_addLoop {p : Performance} {g : Gongan} (hg : g.beats ≠ []) (count : UInt32) :
    Checked.addLoop p g count = some (addLoop p g count) := by
  rw [Checked.addLoop, addLoop, Gongan.firstBeat?_eq hg, Gongan.lastBeat?_eq hg]
  split
  · rfl
  · split <;> rfl

section Placed

variable {p : Performance} (hs : p.score.IsPlaced)

include hs

theorem checked_createJumps {bs : List BeatId} (hbs : ∀ b ∈ bs, b < p.score.beats.size) :
    bs.foldlM Checked.createJump p = some (bs.foldl Performance.createJump p) :=
  Performance.checked_foldlM_modifyJump hs id hbs

theorem checked_setLinks {ls : List Link}
    (hls : ∀ l ∈ ls, l.fromBeat < p.score.beats.size ∧ l.toBeat < p.score.beats.size) :
    ls.foldlM Checked.setLink p = some (p.setLinks ls) := by
  induction ls generalizing p with
  | nil => rfl
  | cons l ls ih =>
    obtain ⟨⟨hfrom, hto⟩, hls⟩ := List.forall_mem_cons.1 hls
    obtain ⟨beat, g, h⟩ := hs.exists_standsAt hfrom
    obtain ⟨beat', g', h'⟩ := hs.exists_standsAt hto
    rw [List.foldlM_cons, Checked.setLink, Performance.checked_modifyJump h, h'.found]
    exact ih (p := p.modifyJump l.fromBeat (·.set (.pass l.pass) (some l.toBeat))) hs hls

/-- The jumps of a sequence leave the gongans of its beats. -/
theorem checked_links (taken : SortedMap BeatId UInt32) {beats : List BeatId}
    (hbeats : ∀ b ∈ beats, b < p.score.beats.size) : Checked.links p taken beats = some (links p taken beats) := by
  induction beats generalizing taken with
  | nil => rfl
  | cons a beats ih =>
    cases beats with
    | nil => rfl
    | cons b rest =>
      obtain ⟨ha, hrest⟩ := List.forall_mem_cons.1 hbeats
      obtain ⟨beat, g, h⟩ := hs.exists_standsAt ha
      have hlast := h.lastBeatOf_eq ▸ (hs.beat_bounds ha).2.2
      obtain ⟨beat', g', h'⟩ := hs.exists_standsAt hlast
      rw [Checked.links, links_cons_cons, h.found]
      simp only [Option.bind_eq_bind, Option.bind_some, h.home, Gongan.lastBeat?_eq h.nonempty,
        Performance.checked_jump h', h.lastBeatOf_eq]
      cases successor? ((taken.get? g.lastBeat).getD (p.jump g.lastBeat).maxPass) with
      | none => rfl
      | some pass =>
        simp only
        split
        · rw [h'.found, h'.fullId_eq]
          rfl
        · rw [ih _ hrest]
          rfl

variable {labels : Labels} (hlabels : ∀ name b, labels.get? name = some b → b < p.score.beats.size)

include hlabels

theorem checked_addGoto {g : Gongan} (hg : ∀ b ∈ g.beats, b < p.score.beats.size) (label : String)
    (fromBeat? : Option Nat) (passes : List UInt32) (cycle? : Option UInt32) :
    Checked.addGoto labels p g label fromBeat? passes cycle? =
      some (addGoto labels p g label fromBeat? passes cycle?) := by
  rw [Checked.addGoto, addGoto]
  cases htarget : resolve labels label with
  | error fault => rfl
  | ok target =>
    simp only [bind, Except.bind]
    cases hb : g.beatAt? (fromBeat?.getD g.beats.length) with
    | none => rfl
    | some b =>
      obtain ⟨beat, g', h⟩ := hs.exists_standsAt (hg b (Gongan.mem_of_beatAt? hb))
      obtain ⟨beat', g'', h'⟩ := hs.exists_standsAt (hlabels label target (resolve_eq_ok_iff.1 htarget))
      simp only
      split
      · rfl
      · cases passes.find? fun n => n == 0 || cycle?.getD Jump.defaultCycle < n with
        | some pass => rfl
        | none =>
          simp only
          rw [Performance.checked_modifyJump h, h.found, h'.found]
          rfl

theorem checked_addSequence (names : List String) :
    Checked.addSequence labels p names = some (addSequence labels p names) := by
  rw [Checked.addSequence, addSequence]
  cases hbeats : names.mapM (resolve labels) with
  | error fault => rfl
  | ok beats =>
    have hlt : ∀ b ∈ beats, b < p.score.beats.size := by
      intro b hb
      have hmem : some b ∈ names.map labels.get? := by
        rw [mapM_resolve_eq_ok_iff.1 hbeats]
        exact List.mem_map_of_mem hb
      obtain ⟨name, -, hname⟩ := List.mem_map.1 hmem
      exact hlabels name b hname
    simp only [bind, Except.bind]
    rw [checked_links hs _ hlt]
    cases hls : links p .empty beats with
    | error fault => rfl
    | ok ls =>
      have hends : ∀ l ∈ ls, l.fromBeat < p.score.beats.size ∧ l.toBeat < p.score.beats.size := by
        intro l hl
        obtain ⟨⟨a, b⟩, hab, heq⟩ := List.mem_map.1 (Score.mem_zip_of_links hls hl)
        obtain ⟨hfrom, hto⟩ := Prod.mk.inj heq
        obtain ⟨ha, hb⟩ := List.of_mem_zip hab
        exact ⟨hfrom ▸ (hs.beat_bounds (hlt a ha)).2.2, hto ▸ hlt b (List.mem_of_mem_tail hb)⟩
      have hset := checked_setLinks hs hends
      simp only [Option.bind_some]
      rw [hset]
      rfl

theorem checked_directStep (settings : Settings) {g : Gongan} (hg : g ∈ p.score.gongans.toList) (d : Directive) :
    Checked.directStep settings labels p g d = some (directStep settings labels p g d) := by
  cases d with
  | goto label fromBeat? passes cycle? =>
    exact checked_addGoto hs hlabels (fun b hb => hs.lt_size_of_mem hg hb) label fromBeat? passes cycle?
  | loop count => exact checked_addLoop (hs.nonempty g hg) count
  | _ => rfl

theorem checked_sequenceStep (g : Gongan) (d : Directive) :
    Checked.sequenceStep labels p g d = some (sequenceStep labels p g d) := by
  cases d with
  | «sequence» names => exact checked_addSequence hs hlabels names
  | _ => rfl

end Placed

end Arrangement

/-- To set up the performance of a score, nothing is looked up that is not there. -/
theorem Score.checked_arrange {s : Score} (hs : s.IsPlaced) (settings : Settings) :
    Checked.arrange s settings = some (s.arrange settings) := by
  rw [Checked.arrange, Score.arrange_eq, Score.plain]
  cases hp : Performance.ofScore s settings with
  | error e => rfl
  | ok p =>
    have hplain : s.plain settings = .ok ((List.range s.beats.size).foldl Performance.createJump p) := by
      rw [Score.plain, hp]
      rfl
    have hscore := Score.plain_score hplain
    have hjumps : (List.range s.beats.size).foldlM Checked.createJump p =
        some ((List.range s.beats.size).foldl Performance.createJump p) := by
      rw [Performance.createJumps_eq] at hscore
      refine checked_createJumps (hscore.symm ▸ hs) fun b hb => ?_
      exact hscore.symm ▸ List.mem_range.1 hb
    have hlabels {q : Performance} (hq : q.score = s) (name : String) (b : BeatId)
        (hb : s.labels.get? name = some b) : b < q.score.beats.size := hq.symm ▸ labels_lt hs hb
    have hdirect := checked_applyAll (I := fun q => q.score = s) (Checked.directStep settings s.labels) (directives s)
      (fun q g d hd hq => checked_directStep (hq.symm ▸ hs) (hlabels hq) settings
        (hq.symm ▸ mem_gongans_of_mem_directives hd) d)
      (fun q g d r hq hr => (directStep_score hr).trans hq) hscore
    have hsequences := checked_applyAll (I := fun q => q.score = s) (Checked.sequenceStep s.labels) (directives s)
      (fun q g d _ hq => checked_sequenceStep (hq.symm ▸ hs) (hlabels hq) g d)
      (fun q g d r hq hr => (sequenceStep_score hr).trans hq) (direct_score hplain).1
    simp only [labels, direct] at hdirect hsequences
    simp only [Option.bind_eq_bind, hjumps, Option.bind_some, hdirect, hsequences]
    change (if s.overflows settings _ then _ else _) = some (if s.overflows settings _ then _ else _)
    split <;> rfl

end Gamelan
