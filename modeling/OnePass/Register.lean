/-! # The register bank

Values are computed in six registers, `r4` to `r9`. A bank records which value each of them holds.
There is no spilling: when every register is taken, no further value can be held.
-/
namespace OnePass

abbrev registerCount : Nat := 6

structure Register where
  index : Fin registerCount
  deriving DecidableEq, Repr

namespace Register

def all : List Register :=
  (List.finRange registerCount).map Register.mk

def number (r : Register) : Nat := 4 + r.index

def render (r : Register) : String := "r" ++ toString r.number

end Register

structure RegisterBank (α : Type) where
  holders : Vector (Option α) registerCount := Vector.replicate registerCount none
  deriving DecidableEq, Repr

namespace RegisterBank

variable {α : Type}

def holder (bank : RegisterBank α) (r : Register) : Option α :=
  bank.holders[r.index]

def firstFree? (bank : RegisterBank α) : Option Register :=
  Register.all.find? fun r => (bank.holder r).isNone

def bind (bank : RegisterBank α) (r : Register) (a : α) : RegisterBank α :=
  ⟨bank.holders.set r.index (some a)⟩

def release [DecidableEq α] (bank : RegisterBank α) (a : α) : RegisterBank α :=
  ⟨bank.holders.map fun h => if h = some a then none else h⟩

def held (bank : RegisterBank α) : List α :=
  bank.holders.toList.filterMap id

def occupied (bank : RegisterBank α) : Nat :=
  bank.held.length

end RegisterBank

end OnePass
