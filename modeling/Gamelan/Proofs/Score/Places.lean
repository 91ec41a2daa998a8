import Gamelan.Manuscript
import Mathlib.Data.List.Basic

namespace Gamelan

theorem bind_eq_ok_iff {α β ε : Type} {x : Except ε α} {f : α → Except ε β} {y : β} :
    (x >>= f) = .ok y ↔ ∃ a, x = .ok a ∧ f a = .ok y := by
  cases x <;> simp [bind, Except.bind]

theorem map_eq_ok_iff {α β ε : Type} {x : Except ε α} {f : α → β} {y : β} :
    x.map f = .ok y ↔ ∃ a, x = .ok a ∧ f a = y := by
  cases x <;> simp [Except.map]

theorem map_eq_error_iff {α β ε : Type} {x : Except ε α} {f : α → β} {e : ε} : x.map f = .error e ↔ x = .error e := by
  cases x <;> simp [Except.map]

theorem toOption_eq_some_iff {α ε : Type} {x : Except ε α} {a : α} : x.toOption = some a ↔ x = .ok a := by
  cases x <;> simp [Except.toOption]

/-- Gongans and their beats, numbered from `gongan` and from `id` on, in a score of `total` beats. -/
structure Placed (total gongan id : Nat) (gongans : List Gongan) (beats : List Beat) : Prop where
  ids : gongans.map (·.id) = List.range' gongan gongans.length
  row : gongans.flatMap (·.beats) = List.range' id beats.length
  nonempty : ∀ g ∈ gongans, g.beats ≠ []
  consecutive : ∀ g ∈ gongans, g.beats = List.range' g.firstBeat g.beats.length
  place : ∀ g ∈ gongans, ∀ k b, g.beats[k]? = some b → id ≤ b ∧
    ∃ beat, beats[b - id]? = some beat ∧ beat.gongan = g.id ∧ beat.index = k + 1
  next : ∀ k beat, beats[k]? = some beat → beat.next? = if id + k + 1 < total then some (id + k + 1) else none

/-- One more gongan goes in front of placed ones. -/
theorem Placed.cons {total gongan id : Nat} {gongans : List Gongan} {own more : List Beat} {directives : List Directive}
    (h : Placed total (gongan + 1) (id + own.length) gongans more) (hempty : own ≠ [])
    (hown : ∀ k beat, own[k]? = some beat → beat.gongan = gongan ∧ beat.index = k + 1 ∧
      beat.next? = if id + k + 1 < total then some (id + k + 1) else none) :
    Placed total gongan id (⟨gongan, List.range' id own.length, directives⟩ :: gongans) (own ++ more) where
  ids := by simp [h.ids, List.range'_succ]
  row := by simp [h.row, List.range'_append_1]
  nonempty := by
    intro g hg
    rcases List.mem_cons.1 hg with rfl | hg
    · simpa using hempty
    · exact h.nonempty g hg
  consecutive := by
    intro g hg
    rcases List.mem_cons.1 hg with rfl | hg
    · cases own with
      | nil => exact absurd rfl hempty
      | cons b rest => simp [Gongan.firstBeat, List.range'_succ]
    · exact h.consecutive g hg
  place := by
    intro g hg k b hb
    rcases List.mem_cons.1 hg with rfl | hg
    · obtain ⟨hk, hkb⟩ := List.getElem?_eq_some_iff.1 hb
      rw [List.getElem_range', Nat.one_mul] at hkb
      have hlt : k < own.length := by simpa using hk
      obtain ⟨hgongan, hindex, -⟩ := hown k own[k] (List.getElem?_eq_getElem hlt)
      refine ⟨by omega, own[k], ?_, hgongan, hindex⟩
      rw [show b - id = k by omega, List.getElem?_append_left hlt, List.getElem?_eq_getElem hlt]
    · obtain ⟨hid, beat, hbeat, hplace⟩ := h.place g hg k b hb
      have hskip : b - id = own.length + (b - (id + own.length)) := by omega
      refine ⟨by omega, beat, ?_, hplace⟩
      rw [hskip, List.getElem?_append_right (by omega)]
      simpa using hbeat
  next := by
    intro k beat hbeat
    by_cases hk : k < own.length
    · rw [List.getElem?_append_left hk] at hbeat
      exact (hown k beat hbeat).2.2
    · rw [List.getElem?_append_right (by omega)] at hbeat
      have hnext := h.next _ beat hbeat
      rwa [show id + own.length + (k - own.length) + 1 = id + k + 1 by omega] at hnext

namespace Manuscript

/-- A beat without a fault gets its place, its notes by position and its links. -/
theorem Beat.toBeat_eq_ok {b : Manuscript.Beat} {total id gongan index : Nat} {beat : Gamelan.Beat}
    (h : b.toBeat total id gongan index = .ok beat) :
    b.check gongan index = .ok () ∧
      beat = {
        id, gongan, index
        duration := b.duration
        measures := b.measures
        prev? := if id = 0 then none else some (id - 1)
        next? := if id + 1 < total then some (id + 1) else none } := by
  obtain ⟨⟨⟩, hcheck, h⟩ := bind_eq_ok_iff.1 h
  exact ⟨hcheck, (Except.ok.inj h).symm⟩

theorem length_placeBeats {total gongan id index : Nat} {bs : List Manuscript.Beat} {beats : List Gamelan.Beat}
    (h : placeBeats total gongan id index bs = .ok beats) : beats.length = bs.length := by
  induction bs generalizing id index beats with
  | nil =>
    obtain rfl := Except.ok.inj h
    rfl
  | cons b rest ih =>
    obtain ⟨first, -, h⟩ := bind_eq_ok_iff.1 h
    obtain ⟨more, hmore, h⟩ := bind_eq_ok_iff.1 h
    obtain rfl := Except.ok.inj h
    rw [List.length_cons, List.length_cons, ih hmore]

/-- Every placed beat of a gongan has been written at its place there. -/
theorem getElem?_of_placeBeats {total gongan id index : Nat} {bs : List Manuscript.Beat} {beats : List Gamelan.Beat}
    (h : placeBeats total gongan id index bs = .ok beats) {k : Nat} {beat : Gamelan.Beat}
    (hbeat : beats[k]? = some beat) :
    ∃ b, bs[k]? = some b ∧ b.toBeat total (id + k) gongan (index + k) = .ok beat := by
  induction bs generalizing id index beats k with
  | nil =>
    obtain rfl := Except.ok.inj h
    cases hbeat
  | cons b rest ih =>
    obtain ⟨first, hfirst, h⟩ := bind_eq_ok_iff.1 h
    obtain ⟨more, hmore, h⟩ := bind_eq_ok_iff.1 h
    obtain rfl := Except.ok.inj h
    cases k with
    | zero =>
      obtain rfl := Option.some.inj hbeat
      exact ⟨b, rfl, hfirst⟩
    | succ k =>
      obtain ⟨b', hb', hplace⟩ := ih hmore (k := k) hbeat
      rw [Nat.add_assoc, Nat.add_comm 1, Nat.add_assoc, Nat.add_comm 1] at hplace
      exact ⟨b', hb', hplace⟩

/-- What placing gongans does to each of them, given that it has no fault. -/
theorem placeGongans_cons {total gongan id : Nat} {g : Manuscript.Gongan} {rest : List Manuscript.Gongan}
    {gongans : List Gamelan.Gongan} {beats : List Gamelan.Beat}
    (h : placeGongans total gongan id (g :: rest) = .ok (gongans, beats)) :
    ∃ own gongans' more, placeBeats total gongan id 1 g.beats = .ok own ∧
      placeGongans total (gongan + 1) (id + g.beats.length) rest = .ok (gongans', more) ∧
      gongans = ⟨gongan, List.range' id g.beats.length, g.directives⟩ :: gongans' ∧ beats = own ++ more ∧
      g.beats ≠ [] := by
  rw [placeGongans] at h
  split at h
  · cases h
  next hempty =>
    obtain ⟨own, hown, h⟩ := bind_eq_ok_iff.1 h
    obtain ⟨⟨gongans', more⟩, hmore, h⟩ := bind_eq_ok_iff.1 h
    cases h
    exact ⟨own, gongans', more, hown, hmore, rfl, rfl, by simpa using hempty⟩

/-- Gongans that are placed put their beats into one row, without gaps. -/
theorem placeGongans_placed {total gongan id : Nat} {gs : List Manuscript.Gongan} {gongans : List Gamelan.Gongan}
    {beats : List Gamelan.Beat} (h : placeGongans total gongan id gs = .ok (gongans, beats)) :
    Placed total gongan id gongans beats ∧ beats.length = (gs.flatMap (·.beats)).length := by
  induction gs generalizing gongan id gongans beats with
  | nil =>
    cases h
    refine ⟨?_, rfl⟩
    constructor <;> simp
  | cons g rest ih =>
    obtain ⟨own, gongans', more, hown, hmore, rfl, rfl, hempty⟩ := placeGongans_cons h
    have hlength := length_placeBeats hown
    rw [← hlength] at hmore ⊢
    obtain ⟨hplaced, htotal⟩ := ih hmore
    refine ⟨hplaced.cons ?_ ?_, by simp [htotal, hlength]⟩
    · exact List.ne_nil_of_length_pos (hlength ▸ List.length_pos_iff.2 hempty)
    · intro k beat hbeat
      obtain ⟨b, -, hplace⟩ := getElem?_of_placeBeats hown hbeat
      obtain ⟨-, rfl⟩ := Beat.toBeat_eq_ok hplace
      exact ⟨rfl, Nat.add_comm 1 k, rfl⟩

end Manuscript

namespace Score

/-- The first beat of the gongan that a beat belongs to. -/
def firstBeatOf (s : Score) (b : BeatId) : BeatId := (s.gongan? (s.gonganOf b)).elim b (·.firstBeat)

/-- The beats from a beat to the end of its gongan. -/
def sectionFrom (s : Score) (b : BeatId) : List BeatId :=
  match s.beats[b]? with
  | none => []
  | some beat => (s.gongan? beat.gongan).elim [] (·.beats.drop (beat.index - 1))

/-- The beats of all gongans after the one that a beat belongs to. -/
def beatsAfter (s : Score) (b : BeatId) : List BeatId :=
  (s.gongans.toList.drop (s.gonganOf b)).flatMap (·.beats)

theorem firstBeat?_eq_some_iff {s : Score} {b : BeatId} : s.firstBeat? = some b ↔ 0 < s.beats.size ∧ b = 0 := by
  rw [firstBeat?]
  split
  next hempty => simp [Array.isEmpty_iff_size_eq_zero.1 hempty]
  next hbeats =>
    have hsize : 0 < s.beats.size := Nat.pos_of_ne_zero fun hzero => hbeats (Array.isEmpty_iff_size_eq_zero.2 hzero)
    simp [hsize, eq_comm]

def IsPlaced (s : Score) : Prop := Placed s.beats.size 1 0 s.gongans.toList s.beats.toList

namespace IsPlaced

variable {s : Score} (hs : s.IsPlaced) {b c : BeatId} {g : Gongan}

include hs

theorem gongan?_eq_some_iff {n : Nat} : s.gongan? n = some g ↔ g ∈ s.gongans.toList ∧ g.id = n := by
  have hid (i : Nat) (hg : s.gongans.toList[i]? = some g) : g.id = i + 1 := by
    have hget := congrArg (·[i]?) hs.ids
    have hi := (List.getElem?_eq_some_iff.1 hg).1
    simp only [List.getElem?_map, hg, Option.map_some, List.getElem?_range' hi, Option.some.injEq] at hget
    omega
  constructor
  · intro hg
    cases n with
    | zero => cases hg
    | succ n =>
      rw [gongan?, ← Array.getElem?_toList] at hg
      exact ⟨List.mem_of_getElem? hg, hid n hg⟩
  · rintro ⟨hg, rfl⟩
    obtain ⟨i, hi⟩ := List.getElem?_of_mem hg
    rw [hid i hi, gongan?, ← Array.getElem?_toList]
    exact hi

/-- Where a beat of a gongan stands. -/
theorem beat_of_getElem? (hg : g ∈ s.gongans.toList) {k : Nat} (hb : g.beats[k]? = some b) :
    b = g.firstBeat + k ∧ ∃ beat, s.beats[b]? = some beat ∧ beat.gongan = g.id ∧ beat.index = k + 1 := by
  obtain ⟨-, beat, hbeat, hplace⟩ := hs.place g hg k b hb
  rw [hs.consecutive g hg] at hb
  obtain ⟨hk, hkb⟩ := List.getElem?_eq_some_iff.1 hb
  rw [List.getElem_range', Nat.one_mul] at hkb
  exact ⟨hkb.symm, beat, by simpa using hbeat, hplace⟩

theorem exists_gongan (hb : b < s.beats.size) :
    ∃ g ∈ s.gongans.toList, ∃ k : Nat, g.beats[k]? = some b := by
  have hrow : b ∈ s.gongans.toList.flatMap (·.beats) := by
    rw [hs.row]
    simpa using hb
  obtain ⟨g, hg, hmem⟩ := List.mem_flatMap.1 hrow
  exact ⟨g, hg, List.getElem?_of_mem hmem⟩

theorem lastBeat_eq (hg : g ∈ s.gongans.toList) : g.lastBeat + 1 = g.firstBeat + g.beats.length := by
  have hpos := List.length_pos_iff.2 (hs.nonempty g hg)
  have hlast : g.beats.getLast? = some (g.firstBeat + (g.beats.length - 1)) := by
    rw [List.getLast?_eq_getElem?]
    rw [hs.consecutive g hg, List.length_range', List.getElem?_range' (by lia), Nat.one_mul]
  rw [Gongan.lastBeat, List.getLastD_eq_getLast?, hlast]
  simp only [Option.getD_some]
  lia

/-- A beat of the score is at its place in its gongan. -/
theorem home (hb : b < s.beats.size) :
    ∃ g ∈ s.gongans.toList, s.gongan? (s.gonganOf b) = some g ∧ s.firstBeatOf b = g.firstBeat ∧
      s.lastBeatOf b + 1 = g.firstBeat + g.beats.length ∧ g.firstBeat ≤ b ∧ b < g.firstBeat + g.beats.length ∧
      s.earlierBeats b = g.beats.take (b - g.firstBeat) ∧ s.sectionFrom b = g.beats.drop (b - g.firstBeat) := by
  obtain ⟨g, hg, k, hk⟩ := hs.exists_gongan hb
  obtain ⟨hbk, beat, hbeat, hgongan, hindex⟩ := hs.beat_of_getElem? hg hk
  have hfound : s.gongan? g.id = some g := hs.gongan?_eq_some_iff.2 ⟨hg, rfl⟩
  have hof : s.gonganOf b = g.id := by simp [gonganOf, hbeat, hgongan]
  have hlt : k < g.beats.length := (List.getElem?_eq_some_iff.1 hk).1
  refine ⟨g, hg, by rw [hof, hfound], ?_, ?_, by lia, by lia, ?_, ?_⟩
  · simp [firstBeatOf, hof, hfound]
  · simp [lastBeatOf, hof, hfound, hs.lastBeat_eq hg]
  · simp only [earlierBeats, hbeat, hgongan, hfound, hindex, Option.elim_some]
    congr 1
    lia
  · simp only [sectionFrom, hbeat, hgongan, hfound, hindex, Option.elim_some]
    congr 1
    lia

theorem gonganOf_pos (hb : b < s.beats.size) : 0 < s.gonganOf b := by
  obtain ⟨g, -, hfound, -⟩ := hs.home hb
  refine Nat.pos_of_ne_zero fun hzero => ?_
  rw [hzero] at hfound
  cases hfound

theorem lt_size_of_mem (hg : g ∈ s.gongans.toList) (hb : b ∈ g.beats) : b < s.beats.size := by
  have hmem : b ∈ s.gongans.toList.flatMap (·.beats) := List.mem_flatMap.2 ⟨g, hg, hb⟩
  rw [hs.row, List.mem_range'_1] at hmem
  simpa using hmem.2

theorem beat_bounds (hb : b < s.beats.size) :
    s.firstBeatOf b ≤ b ∧ b ≤ s.lastBeatOf b ∧ s.lastBeatOf b < s.beats.size := by
  obtain ⟨g, hg, -, hfirst, hlast, hle, hlt, -⟩ := hs.home hb
  have hlt := hs.lt_size_of_mem (b := s.lastBeatOf b) hg (by
    rw [hs.consecutive g hg, List.mem_range'_1]
    lia)
  lia

theorem earlierBeats_eq (hb : b < s.beats.size) :
    s.earlierBeats b = List.range' (s.firstBeatOf b) (b - s.firstBeatOf b) := by
  obtain ⟨g, hg, -, hfirst, -, hle, hlt, hearlier, -⟩ := hs.home hb
  rw [hearlier, hs.consecutive g hg, hfirst, List.take_range'_of_length_ge (by lia)]

theorem sectionFrom_eq (hb : b < s.beats.size) :
    s.sectionFrom b = List.range' b (s.lastBeatOf b + 1 - b) := by
  obtain ⟨g, hg, -, -, hlast, hle, hlt, -, hsection⟩ := hs.home hb
  rw [hsection, hs.consecutive g hg, hlast, List.drop_range', Nat.mul_one, Nat.add_sub_cancel' hle]
  congr 1
  lia

/-- Beats belong to the same gongan where they lie between its ends. -/
theorem gonganOf_eq_iff (hb : b < s.beats.size) (hc : c < s.beats.size) :
    s.gonganOf c = s.gonganOf b ↔ s.firstBeatOf b ≤ c ∧ c ≤ s.lastBeatOf b := by
  obtain ⟨g, hg, hfound, hfirst, hlast, hle, hlt, -⟩ := hs.home hb
  constructor
  · intro heq
    obtain ⟨g', hg', hfound', -, -, hle', hlt', -⟩ := hs.home hc
    rw [heq, hfound] at hfound'
    obtain rfl := Option.some.inj hfound'
    lia
  · intro hc
    have hk : g.beats[c - g.firstBeat]? = some c := by
      rw [hs.consecutive g hg, List.getElem?_range' (by lia), Nat.one_mul, Nat.add_sub_cancel' (by lia)]
    obtain ⟨-, beat, hbeat, hgongan, -⟩ := hs.beat_of_getElem? hg hk
    rw [(hs.gongan?_eq_some_iff.1 hfound).2.symm]
    simp [gonganOf, hbeat, hgongan]

theorem lastBeatOf_congr (hb : b < s.beats.size) (h : s.gonganOf c = s.gonganOf b) :
    s.lastBeatOf c = s.lastBeatOf b := by
  obtain ⟨g, hg, hfound, -⟩ := hs.home hb
  simp [lastBeatOf, h, hfound]

theorem firstBeatOf_congr (hb : b < s.beats.size) (h : s.gonganOf c = s.gonganOf b) :
    s.firstBeatOf c = s.firstBeatOf b := by
  obtain ⟨g, hg, hfound, -⟩ := hs.home hb
  simp [firstBeatOf, h, hfound]

theorem lastBeatOf_succ (hb : b < s.beats.size) (hlast : s.lastBeatOf b ≠ b) :
    s.lastBeatOf (b + 1) = s.lastBeatOf b := by
  obtain ⟨hfirst, hle, hlt⟩ := hs.beat_bounds hb
  exact hs.lastBeatOf_congr hb ((hs.gonganOf_eq_iff hb (by lia)).2 ⟨by lia, by lia⟩)

/-- The beats up to the end of a gongan begin with the one at hand. -/
theorem sectionFrom_cons (hb : b < s.beats.size) :
    s.sectionFrom b = if s.lastBeatOf b = b then [b] else b :: s.sectionFrom (b + 1) := by
  obtain ⟨hfirst, hle, hlt⟩ := hs.beat_bounds hb
  rw [hs.sectionFrom_eq hb]
  split
  next hlast => rw [hlast, Nat.add_sub_cancel_left]; rfl
  next hlast =>
    have hnext : s.lastBeatOf (b + 1) = s.lastBeatOf b := hs.lastBeatOf_succ hb hlast
    rw [hs.sectionFrom_eq (by lia), hnext, show s.lastBeatOf b + 1 - b = (s.lastBeatOf b + 1 - (b + 1)) + 1 by lia,
      List.range'_succ]

theorem lastBeatOf_lastBeatOf (hb : b < s.beats.size) : s.lastBeatOf (s.lastBeatOf b) = s.lastBeatOf b := by
  obtain ⟨hfirst, hle, hlt⟩ := hs.beat_bounds hb
  exact hs.lastBeatOf_congr hb ((hs.gonganOf_eq_iff hb hlt).2 ⟨by lia, by lia⟩)

theorem lt_of_mem_earlierBeats (hc : c < s.beats.size) (hb : b ∈ s.earlierBeats c) : b < c := by
  rw [hs.earlierBeats_eq hc, List.mem_range'_1] at hb
  lia

/-- The last beat of a gongan stands in front of no other one. -/
theorem not_mem_earlierBeats (hc : c < s.beats.size) (hlast : s.lastBeatOf b = b) : b ∉ s.earlierBeats c := by
  intro hb
  rw [hs.earlierBeats_eq hc, List.mem_range'_1] at hb
  obtain ⟨hfirst, hle, hlt⟩ := hs.beat_bounds hc
  have hof : s.gonganOf b = s.gonganOf c := (hs.gonganOf_eq_iff hc (by lia)).2 (by lia)
  have hends := hs.lastBeatOf_congr hc hof
  lia

/-- Up to the end of a gongan only its own end is performed. -/
theorem count_sectionFrom (hb : b < s.beats.size) (hlast : s.lastBeatOf c = c) :
    (s.sectionFrom b).count c = if s.lastBeatOf b = c then 1 else 0 := by
  obtain ⟨hfirst, hle, hlt⟩ := hs.beat_bounds hb
  have hmem : c ∈ s.sectionFrom b ↔ s.lastBeatOf b = c := by
    rw [hs.sectionFrom_eq hb, List.mem_range'_1]
    constructor
    · intro hc
      have hof : s.gonganOf c = s.gonganOf b := (hs.gonganOf_eq_iff hb (by lia)).2 (by lia)
      rw [← hs.lastBeatOf_congr hb hof, hlast]
    · intro hc
      lia
  have hnodup : (s.sectionFrom b).Nodup := by
    rw [hs.sectionFrom_eq hb]
    exact List.nodup_range'
  rw [hnodup.count]
  simp only [hmem]

/-- The beats after a gongan are all that follow its last one. -/
theorem beatsAfter_eq (hb : b < s.beats.size) :
    s.beatsAfter b = List.range' (s.lastBeatOf b + 1) (s.beats.size - (s.lastBeatOf b + 1)) := by
  obtain ⟨g, hg, hfound, -, hlast, -⟩ := hs.home hb
  have hrow := hs.row
  rw [← List.take_append_drop (s.gonganOf b) s.gongans.toList, List.flatMap_append] at hrow
  obtain ⟨stop, hstop, htake, hdrop⟩ := List.range'_eq_append_iff.1 hrow.symm
  cases hof : s.gonganOf b with
  | zero =>
    rw [hof] at hfound
    cases hfound
  | succ i =>
    have hget : s.gongans.toList[i]? = some g := by
      rw [hof] at hfound
      simpa [gongan?] using hfound
    rw [hof, List.take_add_one, hget, List.flatMap_append] at htake
    obtain ⟨start, hstart, -, hown⟩ := List.range'_eq_append_iff.1 htake.symm
    have hbeats : g.beats = List.range' start (stop - start) := by simpa using hown
    have hpos := List.length_pos_iff.2 (hs.nonempty g hg)
    have hlength : g.beats.length = stop - start := by rw [hbeats, List.length_range']
    have hfirst : g.firstBeat = start := by
      rw [Gongan.firstBeat, hbeats, List.headD_eq_head?_getD, List.head?_range', if_neg (by lia), Option.getD_some]
    have hstopLast : stop = s.lastBeatOf b + 1 := by lia
    rw [beatsAfter, hdrop, hstopLast]
    simp

theorem mem_beats_iff (hg : g ∈ s.gongans.toList) : b ∈ g.beats ↔ g.firstBeat ≤ b ∧ b ≤ g.lastBeat := by
  have hlast := hs.lastBeat_eq hg
  rw [hs.consecutive g hg, List.mem_range'_1]
  lia

theorem ends_mem (hg : g ∈ s.gongans.toList) : g.firstBeat ∈ g.beats ∧ g.lastBeat ∈ g.beats := by
  have hlast := hs.lastBeat_eq hg
  have hpos := List.length_pos_iff.2 (hs.nonempty g hg)
  rw [hs.mem_beats_iff hg, hs.mem_beats_iff hg]
  lia

theorem head?_beats (hg : g ∈ s.gongans.toList) : g.beats.head? = some g.firstBeat := by
  have hpos := List.length_pos_iff.2 (hs.nonempty g hg)
  rw [hs.consecutive g hg, List.head?_range', if_neg (by lia)]

/-- Gongans are told apart by their numbers. -/
theorem gongan_unique {g' : Gongan} (hg : g ∈ s.gongans.toList) (hg' : g' ∈ s.gongans.toList) (h : g.id = g'.id) :
    g = g' :=
  Option.some.inj ((hs.gongan?_eq_some_iff.2 ⟨hg, h⟩).symm.trans (hs.gongan?_eq_some_iff.2 ⟨hg', rfl⟩))

/-- A gongan is where its beats belong. -/
theorem gonganOf_of_mem (hg : g ∈ s.gongans.toList) (hb : b ∈ g.beats) :
    s.gonganOf b = g.id ∧ s.firstBeatOf b = g.firstBeat ∧ s.lastBeatOf b = g.lastBeat := by
  obtain ⟨k, hk⟩ := List.getElem?_of_mem hb
  obtain ⟨-, beat, hbeat, hgongan, -⟩ := hs.beat_of_getElem? hg hk
  have hof : s.gonganOf b = g.id := by simp [gonganOf, hbeat, hgongan]
  have hfound : s.gongan? (s.gonganOf b) = some g := hs.gongan?_eq_some_iff.2 ⟨hg, hof.symm⟩
  exact ⟨hof, by simp [firstBeatOf, hfound], by simp [lastBeatOf, hfound]⟩

theorem mem_beats_of_gonganOf (hg : g ∈ s.gongans.toList) (hof : s.gonganOf b = g.id) : b ∈ g.beats := by
  have hb : b < s.beats.size := by
    by_contra hout
    have hfound := hs.gongan?_eq_some_iff.2 ⟨hg, hof.symm⟩
    simp [gonganOf, hout, gongan?] at hfound
  obtain ⟨g', hg', k, hk⟩ := hs.exists_gongan hb
  have hmem := List.mem_of_getElem? hk
  exact hs.gongan_unique hg' hg ((hs.gonganOf_of_mem hg' hmem).1.symm.trans hof) ▸ hmem

/-- The gongans come in the order of their beats. -/
theorem gonganOf_le_of_le (hc : c < s.beats.size) (hbc : b ≤ c) : s.gonganOf b ≤ s.gonganOf c := by
  have hb : b < s.beats.size := Nat.lt_of_le_of_lt hbc hc
  obtain ⟨hfirst, -⟩ := hs.beat_bounds hb
  by_cases hlast : c ≤ s.lastBeatOf b
  · exact Nat.le_of_eq ((hs.gonganOf_eq_iff hb hc).2 ⟨by lia, hlast⟩).symm
  · have hafter : c ∈ s.beatsAfter b := by
      rw [hs.beatsAfter_eq hb, List.mem_range'_1]
      lia
    obtain ⟨g, hg, hown⟩ := List.mem_flatMap.1 hafter
    obtain ⟨i, hi⟩ := List.getElem?_of_mem hg
    rw [List.getElem?_drop, Array.getElem?_toList] at hi
    have hid := (hs.gongan?_eq_some_iff (n := s.gonganOf b + i + 1)).1 hi
    rw [(hs.gonganOf_of_mem hid.1 hown).1, hid.2]
    lia

theorem next?_eq (hb : b < s.beats.size) : s.next? b = if b + 1 < s.beats.size then some (b + 1) else none := by
  have hget : s.beats.toList[b]? = some s.beats[b] := by simp [hb]
  simpa [next?, hb] using hs.next b s.beats[b] hget

end IsPlaced

end Score

theorem Manuscript.toScore_isPlaced {m : Manuscript} {s : Score} (h : m.toScore = .ok s) : s.IsPlaced := by
  obtain ⟨⟨gongans, beats⟩, hplace, h⟩ := bind_eq_ok_iff.1 h
  obtain rfl := Except.ok.inj h
  obtain ⟨hplaced, htotal⟩ := placeGongans_placed hplace
  rw [← htotal] at hplaced
  simpa [Score.IsPlaced] using hplaced

end Gamelan
