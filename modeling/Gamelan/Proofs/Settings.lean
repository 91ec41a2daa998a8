import Gamelan.Proofs.Score.Notation
import Gamelan.Settings

namespace Gamelan.Settings

/-- What settings are that are not refused. -/
structure IsValid (settings : Settings) : Prop where
  ppq : settings.ppq ≠ 0 ∧ settings.ppq ≤ 0x7fff
  defaultTempo : Quantity.isTempo settings.defaultTempo
  maxSteps : settings.maxSteps ≠ 0
  velocities : ∀ entry ∈ settings.dynamics.entries, Quantity.isVelocity entry.2
  defaultDynamics : ∃ v, settings.velocityFor? settings.defaultDynamics = some v
  instruments : ∀ entry ∈ settings.instruments.entries, checkInstrument entry.1 entry.2 = .ok ()

theorem isValid_of_validate {settings : Settings} (h : settings.validate = .ok ()) : settings.IsValid := by
  simp only [validate, bind, Except.bind, throw, throwThe, MonadExceptOf.throw] at h
  split at h
  · cases h
  next hppq =>
  split at h
  · cases h
  next htempo =>
  split at h
  · cases h
  next hmaxSteps =>
  split at h
  · cases h
  next hvelocities =>
  split at h
  · cases h
  next hmark =>
  constructor
  · simpa [not_or] using hppq
  · simpa using htempo
  · simpa using hmaxSteps
  · have hnone : settings.dynamics.entries.find? (fun x => !Quantity.isVelocity x.2) = none := by
      cases hfind : settings.dynamics.entries.find? fun x => !Quantity.isVelocity x.2 with
      | none => rfl
      | some entry => exact absurd hfind (hvelocities entry.1 entry.2)
    simpa using List.find?_eq_none.1 hnone
  · exact Option.ne_none_iff_exists'.1 fun hnone => hmark (Option.isNone_iff_eq_none.2 hnone)
  · exact forM_eq_ok_iff.1 h

namespace IsValid

variable {settings : Settings}

/-- Valid settings have defaults in range. -/
theorem accepts (h : settings.IsValid) :
    Quantity.tempo.accepts settings.defaultTempo ∧ Quantity.dynamics.accepts settings.defaultVelocity := by
  obtain ⟨v, hv⟩ := h.defaultDynamics
  refine ⟨h.defaultTempo, ?_⟩
  have hmem := SortedMap.mem_entries_of_get? hv
  rw [defaultVelocity, hv]
  exact h.velocities (settings.defaultDynamics, v) hmem

/-- Valid settings have instruments such that a file has room for them. -/
theorem instrument_le (h : settings.IsValid) {position : Position} {i : Instrument}
    (hi : (position, i) ∈ settings.instruments.entries) : i.channel ≤ 15 ∧ i.program ≤ 127 := by
  have hchecked := h.instruments (position, i) hi
  rw [checkInstrument] at hchecked
  split at hchecked
  · cases hchecked
  next hchannel =>
    split at hchecked
    · cases hchecked
    next hprogram => exact ⟨UInt8.not_lt.1 hchannel, UInt8.not_lt.1 hprogram⟩

end IsValid

end Gamelan.Settings
