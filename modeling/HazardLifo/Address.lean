/-!
# Addresses

What a hazard slot can hold: the address of a block of memory, or a machine word that some caller
made up. The zero word is the null address; it stands for "nothing".
-/

namespace HazardLifo

/-- A block of memory. Where addresses are never reused, a block also names the one node it held. -/
abbrev Block := Nat

inductive Address where
  | block (b : Block)
  | word (w : UInt64)
  deriving DecidableEq, Repr

namespace Address

def null : Address := .word 0

instance : Inhabited Address := ⟨null⟩

/-- The address a link leads to; a link that leads nowhere is null. -/
def ofLink : Option Block → Address
  | none => null
  | some b => .block b

@[simp] theorem ofLink_none : ofLink none = null := rfl

@[simp] theorem ofLink_some (b : Block) : ofLink (some b) = .block b := rfl

@[simp] theorem block_ne_null (b : Block) : Address.block b ≠ null := nofun

end Address

end HazardLifo
