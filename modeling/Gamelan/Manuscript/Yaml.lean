import Gamelan.Directive.Yaml
import Gamelan.Manuscript

namespace Gamelan.Manuscript

open Yaml Yaml.Decode

def decodeNote (n : Node) : Decode Note := do
  let fs ← fields ["key", "duration"] n
  let key? ← fieldD fs "key" (optional (natural (UInt8.size - 1))) none
  let duration ← field fs "duration" float
  return { key? := key?.map UInt8.ofNat, duration }

def decodeNotes : Node → Decode (SortedMap Position (List Note)) := table text (list decodeNote)

def decodePass (n : Node) : Decode UInt32 := return UInt32.ofNat (← natural (UInt32.size - 1) n)

def decodeBeat (n : Node) : Decode Beat := do
  let fs ← fields ["duration", "notes", "passes"] n
  return {
    duration := ← fieldD fs "duration" float 1
    notes := ← fieldD fs "notes" decodeNotes .empty
    passes := ← fieldD fs "passes" (table decodePass decodeNotes) .empty }

/-- Collections may stand 128 deep in a document. Around what a directive holds there are five: the
score, its gongans, the gongan, its directives and the directive. -/
def directiveDepth : Nat := 128 - 5

def decodeGongan (n : Node) : Decode Gongan := do
  let fs ← fields ["metadata", "beats"] n
  return {
    directives := ← fieldD fs "metadata" (list (Directive.decode directiveDepth)) []
    beats := ← fieldD fs "beats" (list decodeBeat) [] }

def decode (n : Node) : Decode Manuscript := do
  let fs ← fields ["title", "gongans"] n
  return {
    title? := ← fieldD fs "title" (optional text) none
    gongans := ← fieldD fs "gongans" (list decodeGongan) [] }

end Gamelan.Manuscript

namespace Gamelan

/-- Reads a score from its text. -/
def Score.parse (text : String) : Except ScoreFault Score :=
  match Yaml.decode? Manuscript.decode text with
  | some m => m.toScore
  | none => .error .unreadable

end Gamelan
