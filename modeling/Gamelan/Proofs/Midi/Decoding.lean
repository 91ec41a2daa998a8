import Gamelan.Midi.File
import Mathlib.Algebra.Group.Nat.Defs
import Mathlib.Data.List.Basic

namespace Gamelan.Midi

/-- What a track holds: messages for a channel, whose status byte says which one it is, and those that are for the
file or for one device. -/
inductive Message where
  | channel (status : UInt8) (data : Bytes)
  | metaEvent (kind : UInt8) (data : Bytes)
  | exclusive (status : UInt8) (data : Bytes)
  deriving DecidableEq, Repr

/-- The first bytes, and those after them. -/
def readBytes (count : Nat) (bytes : Bytes) : Option (Bytes × Bytes) :=
  if count ≤ bytes.length then some (bytes.take count, bytes.drop count) else none

/-- A number in a fixed count of bytes, the highest first. -/
def readNumber (count : Nat) (bytes : Bytes) : Option (Nat × Bytes) :=
  (readBytes count bytes).map fun (digits, rest) => (digits.foldl (fun n b => 256 * n + b.toNat) 0, rest)

/-- A number, seven bits to the byte, after its first groups. Only the last byte is below 128. -/
def readGroups : Nat → Nat → Bytes → Option (Nat × Bytes)
  | 0, _, _ => none
  | _ + 1, _, [] => none
  | count + 1, n, b :: rest =>
    if b.toNat < 128 then some (128 * n + b.toNat, rest) else readGroups count (128 * n + (b.toNat - 128)) rest

/-- A number of variable length, which has four bytes at most. -/
def readVariable (bytes : Bytes) : Option (Nat × Bytes) := readGroups 4 0 bytes

/-- Data with their length in front of them. -/
def readCounted (bytes : Bytes) : Option (Bytes × Bytes) := do
  let (size, rest) ← readVariable bytes
  readBytes size rest

/-- How many bytes of data follow a status byte. -/
def dataCount (status : UInt8) : Nat := if status.toNat / 16 = 0xc ∨ status.toNat / 16 = 0xd then 1 else 2

def readChannel (status : UInt8) (bytes : Bytes) : Option (Option UInt8 × Message × Bytes) := do
  let (data, rest) ← readBytes (dataCount status) bytes
  if data.all (·.toNat < 128) then some (some status, .channel status data, rest) else none

/-- A message that begins with a byte of all ones: its kind and its data. -/
def readMeta : Bytes → Option (Option UInt8 × Message × Bytes)
  | [] => none
  | kind :: rest => (readCounted rest).map fun (data, rest) => (none, .metaEvent kind data, rest)

/-- A message after one with the given status, the status after it, and the bytes after it. Without a status byte the
status goes on; messages that are not for a channel end it. -/
def readMessage (running? : Option UInt8) : Bytes → Option (Option UInt8 × Message × Bytes)
  | [] => none
  | b :: rest =>
    if b.toNat < 128 then running?.bind fun status => readChannel status (b :: rest)
    else if b.toNat < 0xf0 then readChannel b rest
    else if b = 0xff then readMeta rest
    else if b = 0xf0 ∨ b = 0xf7 then (readCounted rest).map fun (data, rest) => (none, .exclusive b data, rest)
    else none

/-- The end of a track. -/
def Message.endOfTrack : Message := .metaEvent 0x2f []

/-- The messages of a track, each after its distance from the one before. The last one is the end of the track, and
nothing comes after it. -/
def readMessages : Nat → Option UInt8 → Bytes → Option (List (Nat × Message))
  | 0, _, _ => none
  | count + 1, running?, bytes => do
    let (delta, bytes) ← readVariable bytes
    let (running?, message, bytes) ← readMessage running? bytes
    if message = .endOfTrack then if bytes = [] then some [(delta, message)] else none
    else (readMessages count running? bytes).map ((delta, message) :: ·)

/-- A chunk of a kind: its data, and the bytes after it. -/
def readChunk (kind : Bytes) (bytes : Bytes) : Option (Bytes × Bytes) := do
  let (found, bytes) ← readBytes 4 bytes
  if found = kind then
    let (size, bytes) ← readNumber 4 bytes
    readBytes size bytes
  else none

/-- Tracks, one chunk each. No message is shorter than two bytes, so there are fewer messages than bytes. -/
def readTracks : Nat → Bytes → Option (List (List (Nat × Message)) × Bytes)
  | 0, bytes => some ([], bytes)
  | count + 1, bytes => do
    let (data, bytes) ← readChunk [0x4d, 0x54, 0x72, 0x6b] bytes
    let track ← readMessages data.length none data
    let (tracks, bytes) ← readTracks count bytes
    some (track :: tracks, bytes)

structure Decoded where
  format : Nat
  division : Nat
  tracks : List (List (Nat × Message))
  deriving DecidableEq, Repr

/-- The file at the beginning of some bytes, and the bytes after it. The header says how many tracks there are. The
reader follows the format alone: it uses nothing of what writes files. -/
def readFile (bytes : Bytes) : Option (Decoded × Bytes) := do
  let (header, bytes) ← readChunk [0x4d, 0x54, 0x68, 0x64] bytes
  let (format, header) ← readNumber 2 header
  let (count, header) ← readNumber 2 header
  let (division, _) ← readNumber 2 header
  let (tracks, bytes) ← readTracks count bytes
  some ({ format, division, tracks }, bytes)

/-- The event of a channel, from the upper half of its status byte. -/
def channelEvent? (kind : Nat) (channel : UInt8) (data : Bytes) : Option Event :=
  match kind, data with
  | 0x8, [key, velocity] => some (.noteOff channel key velocity)
  | 0x9, [key, velocity] => some (.noteOn channel key velocity)
  | 0xc, [program] => some (.programChange channel program)
  | _, _ => none

/-- The event that a message stands for, if it is of a kind that is used here. -/
def Message.event? : Message → Option Event
  | .channel status data => channelEvent? (status.toNat / 16) (UInt8.ofNat (status.toNat % 16)) data
  | .metaEvent kind data =>
    if kind = 0x03 then (String.fromUTF8? data.toByteArray).map .trackName
    else if kind = 0x51 then
      match readNumber 3 data with
      | some (n, []) => some (.tempo (UInt32.ofNat n))
      | _ => none
    else if kind = 0x2f ∧ data = [] then some .endOfTrack
    else none
  | .exclusive .. => none

section Numbers

theorem readBytes_append (data rest : Bytes) : readBytes data.length (data ++ rest) = some (data, rest) := by
  simp [readBytes]

theorem length_bigEndian (count n : Nat) : (bigEndian count n).length = count := by
  induction count generalizing n with
  | zero => rfl
  | succ count ih => simp [bigEndian, ih]

theorem foldl_bigEndian {count n : Nat} (h : n < 256 ^ count) :
    (bigEndian count n).foldl (fun n b => 256 * n + b.toNat) 0 = n := by
  induction count generalizing n with
  | zero =>
    rw [Nat.pow_zero, Nat.lt_one_iff] at h
    exact h.symm
  | succ count ih =>
    have hdiv : n / 256 < 256 ^ count := by
      rw [Nat.div_lt_iff_lt_mul (by decide), ← Nat.pow_succ]
      exact h
    rw [bigEndian, List.foldl_append, ih hdiv, List.foldl_cons, List.foldl_nil, UInt8.toNat_ofNat']
    exact Nat.div_add_mod n 256

theorem readNumber_bigEndian {count n : Nat} (h : n < 256 ^ count) (rest : Bytes) :
    readNumber count (bigEndian count n ++ rest) = some (n, rest) := by
  have hbytes := readBytes_append (bigEndian count n) rest
  rw [length_bigEndian] at hbytes
  rw [readNumber, hbytes, Option.map_some]
  simp only [foldl_bigEndian h]

theorem upperGroups_append (n : Nat) (written rest : Bytes) :
    upperGroups n written ++ rest = upperGroups n (written ++ rest) := by
  induction n, written using upperGroups.induct with
  | case1 written => simp [upperGroups]
  | case2 n written hn ih =>
    rw [upperGroups, dif_neg hn, ih, List.cons_append, upperGroups.eq_def n (written ++ rest), dif_neg hn]

theorem length_le_upperGroups (n : Nat) (written : Bytes) : written.length ≤ (upperGroups n written).length := by
  induction n, written using upperGroups.induct with
  | case1 written => simp [upperGroups]
  | case2 n written hn ih =>
    rw [upperGroups, dif_neg hn]
    exact Nat.le_trans (Nat.le_succ _) ih

/-- A number below a power of 128 has as many groups at most. -/
theorem length_upperGroups_le {count n : Nat} (h : n < 128 ^ count) (written : Bytes) :
    (upperGroups n written).length ≤ written.length + count := by
  induction count generalizing n written with
  | zero =>
    rw [Nat.pow_zero, Nat.lt_one_iff] at h
    rw [h, upperGroups]
    exact Nat.le_refl _
  | succ count ih =>
    have hdiv : n / 128 < 128 ^ count := by
      rw [Nat.div_lt_iff_lt_mul (by decide), ← Nat.pow_succ]
      exact h
    rw [upperGroups]
    split
    · exact Nat.le_add_right _ _
    · have hlength := ih hdiv (UInt8.ofNat (n % 128 + 128) :: written)
      rw [List.length_cons] at hlength
      omega

/-- What the upper groups add up to is the number in front of what is written. -/
theorem readGroups_upperGroups (count n : Nat) (written : Bytes) :
    readGroups (count + ((upperGroups n written).length - written.length)) 0 (upperGroups n written) =
      readGroups count n written := by
  induction n, written using upperGroups.induct generalizing count with
  | case1 written => simp [upperGroups]
  | case2 n written hn ih =>
    have hlength := length_le_upperGroups (n / 128) (UInt8.ofNat (n % 128 + 128) :: written)
    have hgroup : (UInt8.ofNat (n % 128 + 128)).toNat = n % 128 + 128 := by
      rw [UInt8.toNat_ofNat']
      omega
    have hfirst := ih (count + 1)
    rw [readGroups, hgroup, if_neg (by omega)] at hfirst
    rw [List.length_cons] at hlength hfirst
    rw [upperGroups, dif_neg hn]
    generalize upperGroups (n / 128) (UInt8.ofNat (n % 128 + 128) :: written) = groups at hlength hfirst ⊢
    rw [show count + (groups.length - written.length) = count + 1 + (groups.length - (written.length + 1)) by omega,
      hfirst, show 128 * (n / 128) + (n % 128 + 128 - 128) = n by omega]

theorem length_variableLength_le {n : Nat} (h : n < 2 ^ 28) : (variableLength n).length ≤ 4 := by
  have hdiv : n / 128 < 128 ^ 3 := by omega
  exact length_upperGroups_le hdiv _

theorem readVariable_variableLength {n : Nat} (h : n < 2 ^ 28) (rest : Bytes) :
    readVariable (variableLength n ++ rest) = some (n, rest) := by
  have hdiv : n / 128 < 128 ^ 3 := by omega
  have hlength := length_upperGroups_le hdiv ([UInt8.ofNat (n % 128)] ++ rest)
  have hlast : (UInt8.ofNat (n % 128)).toNat = n % 128 := by
    rw [UInt8.toNat_ofNat']
    omega
  rw [variableLength, upperGroups_append, readVariable]
  generalize hextra : (upperGroups (n / 128) ([UInt8.ofNat (n % 128)] ++ rest)).length -
    ([UInt8.ofNat (n % 128)] ++ rest).length = extra
  have hgroups := readGroups_upperGroups (3 - extra + 1) (n / 128) ([UInt8.ofNat (n % 128)] ++ rest)
  rw [hextra, show 3 - extra + 1 + extra = 4 by omega] at hgroups
  rw [hgroups, List.cons_append, readGroups, hlast, if_pos (by omega), List.nil_append, Nat.div_add_mod]

theorem readCounted_append {data : Bytes} (h : data.length < 2 ^ 28) (rest : Bytes) :
    readCounted (variableLength data.length ++ data ++ rest) = some (data, rest) := by
  rw [readCounted, List.append_assoc, readVariable_variableLength h]
  exact readBytes_append data rest

end Numbers

/-- The message that stands for an event. -/
def Event.message : Event → Message
  | .trackName name => .metaEvent 0x03 (textBytes name)
  | .tempo n => .metaEvent 0x51 (bigEndian 3 n.toNat)
  | .endOfTrack => .endOfTrack
  | .programChange channel program => .channel (0xc0 ||| channel) [program]
  | .noteOff channel key velocity => .channel (0x80 ||| channel) [key, velocity]
  | .noteOn channel key velocity => .channel (0x90 ||| channel) [key, velocity]

/-- Whether a file has room for the numbers of an event. -/
def Event.Fits : Event → Prop
  | .trackName _ => True
  | .tempo n => n.toNat < 2 ^ 24
  | .endOfTrack => True
  | .programChange channel program => channel.toNat < 16 ∧ program.toNat < 128
  | .noteOff channel key velocity => channel.toNat < 16 ∧ key.toNat < 128 ∧ velocity.toNat < 128
  | .noteOn channel key velocity => channel.toNat < 16 ∧ key.toNat < 128 ∧ velocity.toNat < 128

section Text

theorem toList_loop_eq (bytes : ByteArray) (i : Nat) (written : Bytes) :
    ByteArray.toList.loop bytes i written = written.reverse ++ bytes.data.toList.drop i := by
  induction i, written using ByteArray.toList.loop.induct bytes with
  | case1 i written hi ih =>
    have hlt : i < bytes.data.toList.length := hi
    rw [ByteArray.toList.loop, if_pos hi, ih, List.drop_eq_getElem_cons hlt]
    simp [ByteArray.get!, hi]
  | case2 i written hi =>
    have hle : bytes.data.toList.length ≤ i := Nat.le_of_not_lt hi
    rw [ByteArray.toList.loop, if_neg hi, List.drop_of_length_le hle, List.append_nil]

theorem textBytes_eq (name : String) : textBytes name = name.toUTF8.data.toList := by
  rw [textBytes, ByteArray.toList, toList_loop_eq, List.reverse_nil, List.nil_append, List.drop_zero]

theorem length_textBytes (name : String) : (textBytes name).length = name.utf8ByteSize := by
  rw [textBytes_eq]
  rfl

theorem fromUTF8?_textBytes (name : String) : String.fromUTF8? (textBytes name).toByteArray = some name := by
  have hbytes : (textBytes name).toByteArray = name.toByteArray := by
    rw [textBytes_eq]
    exact ByteArray.ext List.data_toByteArray
  rw [hbytes, String.fromUTF8?, dif_pos name.isValidUTF8]
  rfl

end Text

section Messages

theorem toNat_status {kind channel : UInt8} (hkind : kind.toNat % 16 = 0) (h : channel.toNat < 16) :
    (kind ||| channel).toNat = kind.toNat + channel.toNat := by
  rw [UInt8.toNat_or, ← Nat.div_add_mod kind.toNat 16, hkind]
  exact (Nat.two_pow_add_eq_or_of_lt (i := 4) h _).symm

theorem readChannel_append {status : UInt8} {data : Bytes} (hcount : data.length = dataCount status)
    (hdata : ∀ b ∈ data, b.toNat < 128) (rest : Bytes) :
    readChannel status (data ++ rest) = some (some status, .channel status data, rest) := by
  have hall : data.all (·.toNat < 128) := List.all_eq_true.2 fun b hb => decide_eq_true (hdata b hb)
  rw [readChannel, ← hcount, readBytes_append]
  exact if_pos hall

/-- A message for a channel is read with its status byte and, where it repeats the status, without. -/
theorem readMessage_channel {status : UInt8} {data : Bytes} (hlow : 128 ≤ status.toNat) (hhigh : status.toNat < 0xf0)
    (hcount : data.length = dataCount status) (hdata : ∀ b ∈ data, b.toNat < 128) (running? : Option UInt8)
    (rest : Bytes) :
    readMessage running? ((if some status = running? then [] else [status]) ++ data ++ rest) =
      some (some status, .channel status data, rest) := by
  have hread := readChannel_append hcount hdata rest
  split
  next hrunning =>
    subst hrunning
    cases data with
    | nil =>
      rw [dataCount] at hcount
      split at hcount <;> cases hcount
    | cons b data =>
      rw [List.nil_append, List.cons_append, readMessage, if_pos (hdata b (.head _))]
      exact hread
  · rw [List.append_assoc, List.cons_append, List.nil_append, readMessage, if_neg (Nat.not_lt.2 hlow), if_pos hhigh]
    exact hread

theorem readMessage_meta {kind : UInt8} {data : Bytes} (h : data.length < 2 ^ 28) (running? : Option UInt8)
    (rest : Bytes) : readMessage running? (metaBytes kind data ++ rest) = some (none, .metaEvent kind data, rest) := by
  have hread := readCounted_append h rest
  rw [metaBytes, List.cons_append, List.cons_append, List.cons_append, List.cons_append, readMessage,
    if_neg (by decide), if_neg (by decide), if_pos rfl, readMeta, hread]
  rfl

theorem readMessage_event {e : Event} (h : e.Fits)
    (hname : ∀ name, e = .trackName name → name.utf8ByteSize < 2 ^ 28) (running? : Option UInt8) (rest : Bytes) :
    readMessage running? ((if status? e = running? then [] else (status? e).toList) ++ bodyBytes e ++ rest) =
      some (status? e, e.message, rest) := by
  -- An event that is not for a channel has no status, whether one is running or not.
  have hmeta {kind : UInt8} {data : Bytes} (hdata : data.length < 2 ^ 28) :
      readMessage running? ((if none = running? then [] else (none : Option UInt8).toList) ++ metaBytes kind data ++
        rest) = some (none, .metaEvent kind data, rest) := by
    rw [Option.toList_none, ite_self, List.nil_append]
    exact readMessage_meta hdata running? rest
  have hchannel {kind channel : UInt8} {data : Bytes} (hkind : kind.toNat % 16 = 0) (hlow : 128 ≤ kind.toNat)
      (hhigh : kind.toNat < 0xf0) (hroom : channel.toNat < 16)
      (hcount : data.length = if kind.toNat / 16 = 0xc ∨ kind.toNat / 16 = 0xd then 1 else 2)
      (hdata : ∀ b ∈ data, b.toNat < 128) :
      readMessage running? ((if some (kind ||| channel) = running? then [] else [kind ||| channel]) ++ data ++ rest) =
        some (some (kind ||| channel), .channel (kind ||| channel) data, rest) := by
    have hstatus := toNat_status hkind hroom
    have hsame : (kind ||| channel).toNat / 16 = kind.toNat / 16 := by omega
    refine readMessage_channel (by omega) (by omega) ?_ hdata running? rest
    rw [dataCount, hsame, hcount]
  cases e with
  | trackName name => exact hmeta ((length_textBytes name).symm ▸ hname name rfl)
  | tempo n => exact hmeta ((length_bigEndian 3 n.toNat).symm ▸ by decide)
  | endOfTrack => exact hmeta (by decide)
  | programChange channel program =>
    exact hchannel (by decide) (by decide) (by decide) h.1 rfl (by simpa [bodyBytes] using h.2)
  | noteOff channel key velocity =>
    exact hchannel (by decide) (by decide) (by decide) h.1 rfl (by simpa [bodyBytes] using h.2)
  | noteOn channel key velocity =>
    exact hchannel (by decide) (by decide) (by decide) h.1 rfl (by simpa [bodyBytes] using h.2)

theorem event?_message {e : Event} (h : e.Fits) : e.message.event? = some e := by
  have hchannel {kind channel : UInt8} (hkind : kind.toNat % 16 = 0) (hroom : channel.toNat < 16) (data : Bytes) :
      (Message.channel (kind ||| channel) data).event? = channelEvent? (kind.toNat / 16) channel data := by
    have hstatus := toNat_status hkind hroom
    rw [Message.event?, show (kind ||| channel).toNat / 16 = kind.toNat / 16 by omega,
      show (kind ||| channel).toNat % 16 = channel.toNat by omega, UInt8.ofNat_toNat]
  cases e with
  | trackName name =>
    rw [Event.message, Message.event?, if_pos rfl, fromUTF8?_textBytes]
    rfl
  | tempo n =>
    have hread := @readNumber_bigEndian 3 n.toNat h []
    rw [List.append_nil] at hread
    rw [Event.message, Message.event?, if_neg (by decide), if_pos rfl, hread]
    simp
  | endOfTrack => rfl
  | programChange channel program => exact hchannel (by decide) h.1 [program]
  | noteOff channel key velocity => exact hchannel (by decide) h.1 [key, velocity]
  | noteOn channel key velocity => exact hchannel (by decide) h.1 [key, velocity]

end Messages

end Gamelan.Midi
