namespace Gamelan

/-- A counter that runs `1, 2, …, cycle, 1, 2, …` from a start at zero. -/
structure Counter where
  cycle : UInt32
  value : UInt32 := 0
  deriving DecidableEq, Repr

namespace Counter

def reset (c : Counter) : Counter := { c with value := 0 }

/-- Counts one up. Having reached the cycle, a counter goes on with one. -/
def increment (c : Counter) : Counter :=
  { c with value := (if c.cycle ≤ c.value then 0 else c.value) + 1 }

/-- Sets a counter to where it would stand after `n` increments from zero. -/
def set (c : Counter) (n : UInt32) : Counter :=
  { c with value := if n = 0 then 0 else (n - 1) % max c.cycle 1 + 1 }

end Counter

section Successor

variable {n m : UInt32}

/-- The number after a number. There is none after the last one. -/
def successor? (n : UInt32) : Option UInt32 := if n = 0xffffffff then none else some (n + 1)

theorem successor?_eq_none_iff : successor? n = none ↔ n = 0xffffffff := by
  rw [successor?]
  split <;> simp_all

theorem successor?_eq_some_iff : successor? n = some m ↔ m.toNat = n.toNat + 1 := by
  have hlast : n = 0xffffffff ↔ n.toNat = 2 ^ 32 - 1 := UInt32.toNat_inj.symm
  have hn := n.toNat_lt
  have hm := m.toNat_lt
  rw [successor?]
  split
  next h =>
    have hnat := hlast.1 h
    simp only [reduceCtorEq, false_iff]
    omega
  next h =>
    have hnat := mt hlast.2 h
    rw [Option.some_inj, ← UInt32.toNat_inj, UInt32.toNat_add]
    change (n.toNat + 1) % 2 ^ 32 = m.toNat ↔ _
    omega

end Successor

end Gamelan
