import Gamelan.Proofs.Score.Places
import Gamelan.Proofs.Midi.Decoding

namespace Gamelan

namespace Midi

def Spaced.Fits (e : Spaced) : Prop := e.delta.toNat < 2 ^ 28 ∧ e.event.Fits

/-- A track whose numbers a file has room for. It has one end, which is its last event. -/
structure IsWritable (t : Track) : Prop where
  fits : ∀ e ∈ t, e.Fits
  ends : ∃ init delta, t = init ++ [⟨delta, .endOfTrack⟩] ∧ ∀ e ∈ init, e.event ≠ .endOfTrack

/-- Whether a file has room for the lengths of the names in a track. -/
def HasShortNames (t : Track) : Prop := ∀ e ∈ t, ∀ name, e.event = .trackName name → name.utf8ByteSize < 2 ^ 28

/-- What a file says of a track. -/
def messages (t : Track) : List (Nat × Message) := t.map fun e => (e.delta.toNat, e.event.message)

theorem message_ne_endOfTrack {e : Event} (h : e ≠ .endOfTrack) : e.message ≠ .endOfTrack := by
  cases e with
  | endOfTrack => exact absurd rfl h
  | trackName name => exact fun heq => absurd (Message.metaEvent.inj heq).1 (by decide)
  | tempo n => exact fun heq => absurd (Message.metaEvent.inj heq).1 (by decide)
  | programChange channel program => nofun
  | noteOff channel key velocity => nofun
  | noteOn channel key velocity => nofun

section Tracks

theorem eventBytes_append (running? : Option UInt8) (e : Spaced) (rest : Bytes) :
    (eventBytes running? e).2 ++ rest = variableLength e.delta.toNat ++
      ((if status? e.event = running? then [] else (status? e.event).toList) ++ bodyBytes e.event ++ rest) := by
  rw [eventBytes, List.append_assoc, List.append_assoc, List.append_assoc]

theorem length_le_sweep_eventBytes (running? : Option UInt8) (t : Track) :
    t.length ≤ (sweep eventBytes running? t).2.length := by
  induction t generalizing running? with
  | nil => exact Nat.zero_le _
  | cons e t ih =>
    have hdelta := length_le_upperGroups (e.delta.toNat / 128) [UInt8.ofNat (e.delta.toNat % 128)]
    have hrest := ih (eventBytes running? e).1
    rw [sweep_cons, List.length_append, List.length_cons]
    have hevent := congrArg List.length (eventBytes_append running? e [])
    rw [List.append_nil, List.length_append, variableLength] at hevent
    rw [List.length_singleton] at hdelta
    omega

/-- The bytes of a track are read as its events, whatever status has been running before. -/
theorem readMessages_sweep {init : Track} {last : Spaced} (hlast : last.event = .endOfTrack)
    (hinit : ∀ e ∈ init, e.event ≠ .endOfTrack) (hfits : ∀ e ∈ init ++ [last], e.Fits)
    (hnames : HasShortNames (init ++ [last])) {count : Nat} (hcount : init.length < count) (running? : Option UInt8) :
    readMessages count running? (sweep eventBytes running? (init ++ [last])).2 = some (messages (init ++ [last])) := by
  induction init generalizing count running? with
  | nil =>
    obtain ⟨count, rfl⟩ := Nat.exists_eq_add_of_le' (Nat.zero_lt_of_lt hcount)
    have hfits := hfits last (.head _)
    rw [List.nil_append, sweep_cons, sweep_nil, eventBytes_append, readMessages, readVariable_variableLength hfits.1]
    simp only [Option.bind_eq_bind, Option.bind_some]
    rw [readMessage_event hfits.2 (hnames last (.head _)), messages, List.map_singleton, hlast]
    rfl
  | cons e init ih =>
    rw [List.forall_mem_cons] at hinit
    rw [List.cons_append, List.forall_mem_cons] at hfits
    rw [List.cons_append, HasShortNames, List.forall_mem_cons] at hnames
    obtain ⟨count, rfl⟩ := Nat.exists_eq_add_of_le' (Nat.zero_lt_of_lt hcount)
    have hrest := ih hinit.2 hfits.2 hnames.2 (Nat.lt_of_succ_lt_succ hcount) (status? e.event)
    rw [List.cons_append, sweep_cons, eventBytes_append, readMessages, readVariable_variableLength hfits.1.1]
    simp only [Option.bind_eq_bind, Option.bind_some]
    rw [readMessage_event hfits.1.2 hnames.1]
    simp only [Option.bind_some, if_neg (message_ne_endOfTrack hinit.1)]
    rw [show (eventBytes running? e).1 = status? e.event from rfl, hrest]
    rfl

/-- What is written of a track, if it is written at all. -/
theorem trackChunk_eq_ok {t : Track} {bytes : Bytes} (h : trackChunk t = .ok bytes) :
    HasShortNames t ∧ (trackBytes t).length < 2 ^ 32 ∧ bytes = chunk "MTrk" (trackBytes t) := by
  rw [trackChunk] at h
  split at h
  · cases h
  next hnames =>
    dsimp only at h
    split at h
    next hlength =>
      refine ⟨fun e he name heq => ?_, hlength, (Except.ok.inj h).symm⟩
      have hname := List.any_eq_false.1 (Bool.eq_false_iff.2 hnames) e he
      simp only [heq, decide_eq_true_eq] at hname
      exact Nat.not_le.1 hname
    · cases h

/-- The distance of an event takes at most four bytes, its status one, and what it says nine besides a name. -/
theorem length_eventBytes_le {size : Nat} {e : Spaced} (h : e.Fits) (hsize : size < 2 ^ 28)
    (hname : ∀ name, e.event = .trackName name → name.utf8ByteSize ≤ size) (running? : Option UInt8) :
    (eventBytes running? e).2.length ≤ 14 + size := by
  have hdelta := length_variableLength_le h.1
  have hstatus : (if status? e.event = running? then [] else (status? e.event).toList).length ≤ 1 := by
    split
    · exact Nat.zero_le _
    · exact Option.length_toList_le
  have hmeta {kind : UInt8} {data : Bytes} (hdata : data.length < 2 ^ 28) :
      (metaBytes kind data).length ≤ 6 + data.length := by
    have hlength := length_variableLength_le hdata
    rw [metaBytes, List.length_append, List.length_cons, List.length_cons]
    omega
  have hbody : (bodyBytes e.event).length ≤ 9 + size := by
    cases hevent : e.event with
    | trackName name =>
      have hle := hname name hevent
      rw [← length_textBytes] at hle
      exact Nat.le_trans (hmeta (Nat.lt_of_le_of_lt hle hsize)) (by omega)
    | tempo n =>
      have hthree := length_bigEndian 3 n.toNat
      exact Nat.le_trans (hmeta (by omega)) (by omega)
    | endOfTrack => exact Nat.le_trans (hmeta (by decide)) (by simp; omega)
    | programChange channel program => simp [bodyBytes]; omega
    | noteOff channel key velocity => simp [bodyBytes]; omega
    | noteOn channel key velocity => simp [bodyBytes]; omega
  rw [eventBytes, List.length_append, List.length_append]
  omega

theorem length_sweep_eventBytes_le {size : Nat} {t : Track} (h : ∀ e ∈ t, e.Fits) (hsize : size < 2 ^ 28)
    (hnames : ∀ e ∈ t, ∀ name, e.event = .trackName name → name.utf8ByteSize ≤ size) (running? : Option UInt8) :
    (sweep eventBytes running? t).2.length ≤ (14 + size) * t.length := by
  induction t generalizing running? with
  | nil => exact Nat.zero_le _
  | cons e t ih =>
    rw [List.forall_mem_cons] at h hnames
    have hevent := length_eventBytes_le h.1 hsize hnames.1 running?
    have hrest := ih h.2 hnames.2 (eventBytes running? e).1
    rw [sweep_cons, List.length_append, List.length_cons, Nat.mul_succ]
    omega

/-- A track with short names is written if it does not have too many events. -/
theorem exists_trackChunk {size : Nat} {t : Track} (ht : IsWritable t) (hsize : size < 2 ^ 28)
    (hnames : ∀ e ∈ t, ∀ name, e.event = .trackName name → name.utf8ByteSize ≤ size)
    (hlength : (14 + size) * t.length < 2 ^ 32) : ∃ bytes, trackChunk t = .ok bytes := by
  have hbytes := length_sweep_eventBytes_le ht.fits hsize hnames none
  rw [trackChunk, if_neg]
  · exact ⟨_, if_pos (Nat.lt_of_le_of_lt hbytes hlength)⟩
  · intro hany
    obtain ⟨e, he, hlong⟩ := List.any_eq_true.1 hany
    split at hlong
    next name hevent =>
      have hle := hnames e he name hevent
      rw [decide_eq_true_eq] at hlong
      omega
    · cases hlong

theorem readMessages_trackBytes {t : Track} (ht : IsWritable t) (hnames : HasShortNames t) :
    readMessages (trackBytes t).length none (trackBytes t) = some (messages t) := by
  have hcount := length_le_sweep_eventBytes none t
  obtain ⟨init, delta, heq, hinit⟩ := ht.ends
  have hfits := ht.fits
  subst heq
  rw [List.length_append, List.length_singleton] at hcount
  exact readMessages_sweep rfl hinit hfits hnames hcount none

end Tracks

section Files

theorem readChunk_chunk {kind : String} {data : Bytes} (hkind : kind.utf8ByteSize = 4) (hdata : data.length < 2 ^ 32)
    (rest : Bytes) : readChunk (textBytes kind) (chunk kind data ++ rest) = some (data, rest) := by
  have hfound := readBytes_append (textBytes kind) (bigEndian 4 data.length ++ (data ++ rest))
  rw [length_textBytes, hkind] at hfound
  rw [readChunk, chunk, List.append_assoc, List.append_assoc, hfound]
  simp only [Option.bind_eq_bind, Option.bind_some, if_true]
  rw [readNumber_bigEndian (show data.length < 256 ^ 4 from hdata)]
  exact readBytes_append data rest

theorem textBytes_track : textBytes "MTrk" = [0x4d, 0x54, 0x72, 0x6b] := by
  rw [textBytes_eq]
  decide +kernel

theorem textBytes_header : textBytes "MThd" = [0x4d, 0x54, 0x68, 0x64] := by
  rw [textBytes_eq]
  decide +kernel

/-- The chunks of tracks are read as the tracks. -/
theorem readTracks_chunks {ts : List Track} (hts : ∀ t ∈ ts, IsWritable t) {chunks : List Bytes}
    (h : ts.mapM trackChunk = .ok chunks) (rest : Bytes) :
    readTracks ts.length (chunks.flatten ++ rest) = some (ts.map messages, rest) := by
  induction ts generalizing chunks with
  | nil =>
    obtain rfl := Except.ok.inj h
    rfl
  | cons t ts ih =>
    rw [List.mapM_cons] at h
    obtain ⟨first, hfirst, h⟩ := bind_eq_ok_iff.1 h
    obtain ⟨more, hmore, h⟩ := bind_eq_ok_iff.1 h
    obtain rfl := Except.ok.inj h
    rw [List.forall_mem_cons] at hts
    obtain ⟨hnames, hlength, rfl⟩ := trackChunk_eq_ok hfirst
    have hchunk := @readChunk_chunk "MTrk" _ rfl hlength (more.flatten ++ rest)
    rw [textBytes_track] at hchunk
    rw [List.flatten_cons, List.append_assoc, List.length_cons, readTracks, hchunk]
    simp only [Option.bind_eq_bind, Option.bind_some]
    rw [readMessages_trackBytes hts.1 hnames]
    simp only [Option.bind_some]
    rw [ih hts.2 hmore]
    rfl

theorem fileBytes_eq_ok {ppq : UInt16} {ts : List Track} {bytes : Bytes} (h : fileBytes ppq ts = .ok bytes) :
    ts.length < 2 ^ 16 ∧ ∃ chunks, ts.mapM trackChunk = .ok chunks ∧
      bytes = chunk "MThd" (bigEndian 2 1 ++ bigEndian 2 ts.length ++ bigEndian 2 (ppq.toNat % 2 ^ 15)) ++
        chunks.flatten := by
  have hdivision : (ppq &&& 0x7fff).toNat = ppq.toNat % 2 ^ 15 := by
    rw [UInt16.toNat_and]
    exact Nat.and_two_pow_sub_one_eq_mod ppq.toNat 15
  rw [fileBytes] at h
  split at h
  · cases h
  next hcount =>
    obtain ⟨chunks, hchunks, h⟩ := bind_eq_ok_iff.1 h
    rw [← hdivision]
    exact ⟨Nat.not_le.1 hcount, chunks, hchunks, (Except.ok.inj h).symm⟩

/-- The bytes of a file are read as its tracks, and none is left. -/
theorem readFile_fileBytes {ppq : UInt16} {ts : List Track} (hts : ∀ t ∈ ts, IsWritable t) {bytes : Bytes}
    (h : fileBytes ppq ts = .ok bytes) :
    readFile bytes = some ({ format := 1, division := ppq.toNat % 2 ^ 15, tracks := ts.map messages }, []) := by
  obtain ⟨hcount, chunks, hchunks, rfl⟩ := fileBytes_eq_ok h
  have hdivision : ppq.toNat % 2 ^ 15 < 256 ^ 2 := by omega
  have htracks := readTracks_chunks hts hchunks []
  rw [List.append_nil] at htracks
  have hheader := @readChunk_chunk "MThd"
    (bigEndian 2 1 ++ bigEndian 2 ts.length ++ bigEndian 2 (ppq.toNat % 2 ^ 15)) rfl (by simp [length_bigEndian])
    chunks.flatten
  have hlast := readNumber_bigEndian hdivision []
  rw [List.append_nil] at hlast
  rw [textBytes_header] at hheader
  rw [readFile, hheader]
  simp only [Option.bind_eq_bind, Option.bind_some, List.append_assoc]
  rw [readNumber_bigEndian (show 1 < 256 ^ 2 by decide)]
  simp only [Option.bind_some]
  rw [readNumber_bigEndian (show ts.length < 256 ^ 2 from hcount)]
  simp only [Option.bind_some]
  rw [hlast]
  simp only [Option.bind_some]
  rw [htracks]
  rfl

/-- A file is written if it does not have too many tracks and all of these are written. -/
theorem exists_fileBytes {ts : List Track} (hcount : ts.length < UInt16.size)
    (h : ∀ t ∈ ts, ∃ bytes, trackChunk t = .ok bytes) (ppq : UInt16) : ∃ bytes, fileBytes ppq ts = .ok bytes := by
  have hchunks : ∃ chunks, ts.mapM trackChunk = .ok chunks := by
    clear hcount
    induction ts with
    | nil => exact ⟨[], rfl⟩
    | cons t ts ih =>
      rw [List.forall_mem_cons] at h
      obtain ⟨first, hfirst⟩ := h.1
      obtain ⟨more, hmore⟩ := ih h.2
      exact ⟨first :: more, by rw [List.mapM_cons, hfirst, hmore]; rfl⟩
  obtain ⟨chunks, hchunks⟩ := hchunks
  rw [fileBytes, if_neg (Nat.not_le.2 hcount), hchunks]
  exact ⟨_, rfl⟩

end Files

end Midi

end Gamelan
