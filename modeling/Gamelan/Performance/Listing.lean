import Gamelan.Performance

namespace Gamelan

/-- A field that holds the two ends of a span. -/
def Span.lines (s : Span) (name : String) : List String := [s!"  {name}:", s!"  - {s.start}", s!"  - {s.stop}"]

def Played.lines (b : Played) : List String :=
  [s!"- beat: {b.beat}",
    s!"  full_id: {b.fullId}",
    s!"  pass: {b.pass}",
    s!"  iteration: {b.iteration}"] ++ b.tempo.lines "tempo" ++ b.dynamics.lines "dynamics"

/-- The beats one after the other; an empty list is a pair of brackets. -/
def Played.listing (played : List Played) : String :=
  if played.isEmpty then "[]\n"
  else String.join (played.map fun b => String.join (b.lines.map (· ++ "\n")))

end Gamelan
