namespace Gamelan

/-- The tempo is in beats per minute, and the dynamics are a velocity. -/
inductive Quantity where
  | tempo
  | dynamics
  deriving DecidableEq, Repr

namespace Quantity

def name : Quantity → String
  | tempo => "Tempo"
  | dynamics => "Dynamics"

/-- A slower beat would not fit a tempo event. -/
def minTempo : Int32 := 4

def maxTempo : Int32 := 1000

def isTempo (value : Int32) : Bool := minTempo ≤ value && value ≤ maxTempo

def isVelocity (value : Int32) : Bool := 0 ≤ value && value ≤ 127

/-- Whether a value is in the range of the quantity. -/
def accepts : Quantity → Int32 → Bool
  | tempo => isTempo
  | dynamics => isVelocity

end Quantity

end Gamelan
