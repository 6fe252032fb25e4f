import CirOutline.Breakdown

/-!
Room for texts and tables. A length has to be a machine integer, and what it asks for has to fit in
the memory; a negative length asks for nothing.
-/

namespace CirOutline.Allocation

/-- The least length above the machine integers. -/
def lengthBound : Int := 0x8000000000000000

/-- The most bytes that one text or table may take: 64 GiB stand for the memory of the machine. -/
def memoryBound : Int := 0x1000000000

/-- The number of cells that a length asks for, when each cell takes `size` bytes. -/
def cells (size length : Int) : Except Breakdown Nat :=
  if length < -lengthBound || lengthBound ≤ length then .error .lengthOutOfRange
  else if memoryBound < size * length then .error .outOfMemory
  else .ok length.toNat

def spaces (length : Int) : Except Breakdown String :=
  (cells 1 length).map fun count => String.ofList (List.replicate count ' ')

end CirOutline.Allocation
