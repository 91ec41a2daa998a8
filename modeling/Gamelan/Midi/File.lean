import Gamelan.Error
import Gamelan.Midi.Event
import Gamelan.Sweep

namespace Gamelan.Midi

abbrev Bytes := List UInt8

/-- A number in a fixed count of bytes, the highest first. -/
def bigEndian : Nat → Nat → Bytes
  | 0, _ => []
  | count + 1, n => bigEndian count (n / 256) ++ [UInt8.ofNat n]

/-- The groups of seven bits above those already written, each marked as not the last. -/
def upperGroups (n : Nat) (written : Bytes) : Bytes :=
  if h : n = 0 then written
  else upperGroups (n / 128) (UInt8.ofNat (n % 128 + 128) :: written)
termination_by n
decreasing_by omega

/-- A number of any size, seven bits to the byte. -/
def variableLength (n : Nat) : Bytes := upperGroups (n / 128) [UInt8.ofNat (n % 128)]

def textBytes (s : String) : Bytes := s.toUTF8.toList

/-- An event that is not for a channel: its kind, and its data after their length. -/
def metaBytes (kind : UInt8) (data : Bytes) : Bytes := 0xff :: kind :: variableLength data.length ++ data

/-- The status byte of an event for a channel. -/
def status? : Event → Option UInt8
  | .programChange channel _ => some (0xc0 ||| channel)
  | .noteOff channel .. => some (0x80 ||| channel)
  | .noteOn channel .. => some (0x90 ||| channel)
  | _ => none

/-- An event without its status byte. -/
def bodyBytes : Event → Bytes
  | .trackName name => metaBytes 0x03 (textBytes name)
  | .tempo n => metaBytes 0x51 (bigEndian 3 n.toNat)
  | .endOfTrack => metaBytes 0x2f []
  | .programChange _ program => [program]
  | .noteOff _ key velocity => [key, velocity]
  | .noteOn _ key velocity => [key, velocity]

/-- An event after one with the given status. A repeated status is left out, and an event that is not
for a channel ends the repetition. -/
def eventBytes (running? : Option UInt8) (e : Spaced) : Option UInt8 × Bytes :=
  let status := status? e.event
  let shown := if status = running? then [] else status.toList
  (status, variableLength e.delta.toNat ++ shown ++ bodyBytes e.event)

/-- A chunk: its four letters, the count of its bytes, and the bytes. -/
def chunk (kind : String) (data : Bytes) : Bytes := textBytes kind ++ bigEndian 4 data.length ++ data

def trackBytes (t : Track) : Bytes := (sweep eventBytes none t).2

/-- The chunk of a track. Its length has to fit into 32 bits, and the length of a name into 28. -/
def trackChunk (t : Track) : Except MidiFault Bytes :=
  if t.any fun e => match e.event with
    | .trackName name => 0x10000000 ≤ name.utf8ByteSize
    | _ => false
  then .error .nameTooLong
  else
    let data := trackBytes t
    if data.length < UInt32.size then .ok (chunk "MTrk" data) else .error .trackTooLong

/-- A file of tracks that are played together, with `ppq` ticks to the beat. -/
def fileBytes (ppq : UInt16) (tracks : List Track) : Except MidiFault Bytes := do
  if UInt16.size ≤ tracks.length then throw .tooManyTracks
  let chunks ← tracks.mapM trackChunk
  let header := bigEndian 2 1 ++ bigEndian 2 tracks.length ++ bigEndian 2 (ppq &&& 0x7fff).toNat
  return chunk "MThd" header ++ chunks.flatten

end Gamelan.Midi
