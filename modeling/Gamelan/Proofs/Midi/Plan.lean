import Gamelan.Proofs.Compile
import Gamelan.Proofs.Midi.Parts
import Gamelan.Proofs.Score.Positions

namespace Gamelan

namespace Midi

/-- Where all positions get a channel, they get the first ones, in turn. -/
theorem assignChannels_eq_ok {channels : List UInt8} {positions : List Position}
    {plan : List (Position × Instrument)} (h : assignChannels channels positions = .ok plan) :
    plan.map (·.1) = positions ∧ plan.map (·.2.channel) <+: channels := by
  induction positions generalizing channels plan with
  | nil =>
    have hnil : plan = [] := by cases channels <;> exact (Except.ok.inj h).symm
    rw [hnil]
    exact ⟨rfl, List.nil_prefix⟩
  | cons position rest ih =>
    cases channels with
    | nil => cases h
    | cons channel channels =>
      obtain ⟨more, hmore, h⟩ := bind_eq_ok_iff.1 h
      obtain rfl := Except.ok.inj h
      obtain ⟨hpositions, hchannels⟩ := ih hmore
      exact ⟨congrArg (position :: ·) hpositions, List.cons_prefix_cons.2 ⟨rfl, hchannels⟩⟩

theorem pairwise_freeChannels : freeChannels.Pairwise (· < ·) := by decide +kernel

/-- What a plan says of the positions of a score where the settings leave it to the score. -/
structure IsPlanOf (plan : List (Position × Instrument)) (s : Score) : Prop where
  complete : ∀ position, position ∈ plan.map (·.1) ↔ s.Notates position
  once : (plan.map (·.1)).Nodup
  names : (plan.map (·.1)).Pairwise fun name name' => textBytes name < textBytes name'
  channels : (plan.map (·.2.channel)).Pairwise (· < ·)
  free : ∀ entry ∈ plan, entry.2.channel ≤ 15 ∧ entry.2.channel ≠ 9 ∧ entry.2.program = 0

theorem isPlanOf_of_assignChannels {s : Score} {plan : List (Position × Instrument)}
    (h : assignChannels freeChannels s.positions = .ok plan) : IsPlanOf plan s := by
  obtain ⟨hpositions, hchannels⟩ := assignChannels_eq_ok h
  have hfree : ∀ channel ∈ freeChannels, channel ≤ 15 ∧ channel ≠ 9 := by
    simp [freeChannels, UInt8.le_iff_toNat_le]
  refine ⟨fun position => ?_, ?_, ?_, pairwise_freeChannels.sublist hchannels.sublist, fun entry hentry => ?_⟩
  · rw [hpositions]
    exact Score.mem_positions_iff
  · rw [hpositions]
    exact s.nodup_positions
  · rw [hpositions]
    exact s.pairwise_positions.imp textBytes_lt
  · obtain ⟨hchannel, hprogram⟩ := channel_mem_of_assignChannels h hentry
    exact ⟨(hfree _ hchannel).1, (hfree _ hchannel).2, hprogram⟩

theorem hasChannels_iff_of_isEmpty {s : Score} {settings : Settings} (hempty : settings.instruments.isEmpty) :
    HasChannels settings s ↔ {position | s.Notates position}.ncard ≤ 15 := by
  rw [HasChannels, s.ncard_notates]
  simp [hempty]

/-- Without instruments in the settings there is a plan exactly if at most fifteen positions have notation anywhere in
a score, for all passes of a beat or for one. It lists each of them once, in the order of the bytes of their names, on
channels that increase and are free. With instruments, these are the plan, in the order of their names, whatever the
score is. -/
theorem channels_are_assigned (s : Score) (settings : Settings) :
    (settings.instruments.isEmpty →
      ((∃ plan, trackPlan s settings = .ok plan) ↔ {position | s.Notates position}.ncard ≤ 15) ∧
      ∀ plan, trackPlan s settings = .ok plan → IsPlanOf plan s) ∧
    (settings.instruments.isEmpty = false → trackPlan s settings = .ok settings.instruments.entries) ∧
    settings.instruments.keys.Pairwise (fun name name' => textBytes name < textBytes name') ∧
    ∀ m : Manuscript, m.toScore = .ok s → ∀ position, s.Notates position ↔
      ∃ i j b, Manuscript.writtenAt? m.gongans i j = some b ∧ (position ∈ b.notes.keys ∨
        ∃ pass byPosition, b.passes.get? pass = some byPosition ∧ position ∈ byPosition.keys) := by
  refine ⟨fun hempty => ⟨?_, fun plan hplan => ?_⟩, fun hsome => ?_, ?_, fun m hm position => Manuscript.notates_iff hm⟩
  · rw [← hasChannels_iff_of_isEmpty hempty]
    refine ⟨fun ⟨plan, hplan⟩ => ?_, exists_trackPlan⟩
    by_contra hnone
    obtain ⟨position, -, herror⟩ := exists_trackPlan_eq_error hnone
    cases hplan.symm.trans herror
  · rw [trackPlan, if_pos hempty] at hplan
    exact isPlanOf_of_assignChannels hplan
  · rw [trackPlan, if_neg (by simp [hsome])]
  · exact settings.instruments.pairwise_keys.imp textBytes_lt

/-- Sixteen positions, one of which is named for a single pass alone, and the same without it. -/
theorem channels_are_assigned_up_to_fifteen :
    let names : List Position := ["ö", "o", "n", "m", "l", "k", "j", "i", "h", "g", "f", "e", "d", "c", "b"]
    let b : Manuscript.Beat := { notes := .ofList (names.map (·, [])) }
    let full : Manuscript := { gongans := [{ beats := [{}, { b with passes := .ofList [(2, .ofList [("a", [])])] }] }] }
    let m : Manuscript := { gongans := [{ beats := [{}, b] }] }
    (∃ s, full.toScore = .ok s ∧ s.Notates "a" ∧ ¬ ∃ plan, trackPlan s {} = .ok plan) ∧
      ∃ s plan, m.toScore = .ok s ∧ trackPlan s {} = .ok plan ∧ IsPlanOf plan s ∧ s.Notates "ö" := by
  intro names b full m
  have hfull : full.toScore.toOption.any (fun s => s.positions.length = 16 ∧ "a" ∈ s.positions) := by decide +kernel
  have hm : m.toScore.toOption.any (fun s => s.positions.length = 15 ∧ "ö" ∈ s.positions) := by decide +kernel
  obtain ⟨s, hs, hpositions⟩ := (Option.any_eq_true _ _).1 hfull
  obtain ⟨s', hs', hpositions'⟩ := (Option.any_eq_true _ _).1 hm
  obtain ⟨hlength, hmem⟩ := of_decide_eq_true hpositions
  obtain ⟨hlength', hmem'⟩ := of_decide_eq_true hpositions'
  obtain ⟨hplan, -⟩ := (channels_are_assigned s {}).1 rfl
  obtain ⟨hplan', hall⟩ := (channels_are_assigned s' {}).1 rfl
  rw [Score.ncard_notates] at hplan hplan'
  obtain ⟨plan, hp⟩ := hplan'.2 (Nat.le_of_eq hlength')
  refine ⟨⟨s, toOption_eq_some_iff.1 hs, Score.mem_positions_iff.1 hmem, ?_⟩, s', plan, toOption_eq_some_iff.1 hs', hp,
    hall plan hp, Score.mem_positions_iff.1 hmem'⟩
  rw [hplan, hlength]
  decide

end Midi

end Gamelan
