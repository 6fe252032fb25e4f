import CirOutline.Allocation
import CirOutline.Fault

/-!
Loop counters that nested loops hold while they are open. A pool has a fixed number of slots; a
loop takes the lowest free one and gives it back when it ends.
-/

namespace CirOutline

structure TemporaryPool where
  /-- The number of slots. -/
  capacity : Nat
  /-- The slots up to the highest that was ever taken; a slot that is in use holds `true`. -/
  slots : List Bool
  fits : slots.length ≤ capacity

namespace TemporaryPool

def slotSize : Int := 8

/-- A pool with all slots free; there has to be at least one. -/
def create (capacity : Int) : Except Breakdown TemporaryPool :=
  if capacity < 1 then .error (.poolCapacity capacity)
  else (Allocation.cells slotSize capacity).map fun count => ⟨count, [], Nat.zero_le count⟩

/-- What the names of the counters start with. -/
def stem : String := "_temp_"

def name (index : Nat) : String := stem ++ toString index

def inUse (pool : TemporaryPool) : List String :=
  pool.slots.zipIdx.filterMap fun slot => if slot.1 then some (name slot.2) else none

/-- Marks a slot that was taken before as in use or free. -/
def mark (pool : TemporaryPool) (index : Nat) (used : Bool) : TemporaryPool where
  capacity := pool.capacity
  slots := pool.slots.set index used
  fits := by rw [List.length_set]; exact pool.fits

/-- Takes the lowest free slot; none when all are in use. -/
def acquire? (pool : TemporaryPool) : Option (String × TemporaryPool) :=
  match pool.slots.findIdx? fun used => !used with
  | some index => some (name index, pool.mark index true)
  | none =>
    if h : pool.slots.length < pool.capacity then
      some (name pool.slots.length,
        ⟨pool.capacity, pool.slots ++ [true], by rw [List.length_append]; exact h⟩)
    else none

/-- Why a name could not be given back. -/
inductive ReleaseError where
  | refused (fault : Fault)
  /-- The end of the name looks like digits and yet gives no number. -/
  | broken (b : Breakdown)

/-- The end of a counter's name; empty for other names. -/
def indexText (name : String) : List Char :=
  if stem.toList.isPrefixOf name.toList then name.toList.drop stem.length else []

def indexOf (pool : TemporaryPool) (name : String) : Except ReleaseError Nat :=
  let digits := indexText name
  if digits.isEmpty || !digits.all Text.isDigitLike then .error (.refused (.foreignTemporary name))
  else
    let leading := digits.takeWhile fun c => (Text.decimalValue? c).isSome
    if Text.Numeral.digitLimit < leading.length then
      .error (.broken (.numeralTooLong leading.length))
    else match Text.Numeral.natural? digits with
      | none => .error (.broken (.unreadableNumeral (String.ofList digits)))
      | some index =>
        if index < pool.capacity then .ok index else .error (.refused (.foreignTemporary name))

def release (pool : TemporaryPool) (name : String) : Except ReleaseError TemporaryPool :=
  match pool.indexOf name with
  | .error e => .error e
  | .ok index =>
    if pool.slots.getD index false then .ok (pool.mark index false)
    else .error (.refused (.releasedTwice name))

end TemporaryPool

end CirOutline
