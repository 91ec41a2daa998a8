import Gamelan.SortedMap
import Gamelan.Yaml.Token

namespace Gamelan.Yaml

inductive Node where
  | aliasTo (target : Nat)
  | scalar (tag? : Option Tag) (style : ScalarStyle) (text : String)
  | seq (tag? : Option Tag) (items : List Node)
  | map (tag? : Option Tag) (entries : List (Node × Node))
  deriving Inhabited

/-- What stands where nothing is written. -/
def Node.empty : Node := .scalar none .plain ""

/-- A node that carries an anchor. -/
structure Anchored where
  /-- The number by which aliases refer to the anchor. -/
  target : Nat
  /-- How many anchored nodes begin before this one. -/
  rank : Nat
  node : Node

/-- A tree of nodes together with the nodes that aliases refer to. An alias is not replaced by its target, which may
contain the alias itself. -/
structure Document where
  root : Node
  anchored : List Anchored
  /-- The size of the tree: one for each leaf, two for each collection. -/
  size : Nat

/-- The node an alias refers to: of the nodes anchored under one number, the last to begin. -/
def Document.target? (d : Document) (target : Nat) : Option Node :=
  let latest := d.anchored.foldl (fun best? a =>
    if a.target != target then best?
    else if best?.any (a.rank < ·.rank) then best?
    else some a) none
  latest.map (·.node)

end Gamelan.Yaml
