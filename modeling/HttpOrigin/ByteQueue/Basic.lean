import HttpOrigin.Bytes

/-! A byte queue in one growing stretch of memory:

    0          position          dataSize          capacity
    | consumed | unconsumed bytes |    free tail    |

Bytes go in behind the data and come out at `position`. The capacity grows by half when less than
half a chunk is free after bytes went in, and half of the slack is given back when the consumed part
and the free tail exceed a chunk together. `toList` is what the queue holds; the lemmas say that no
change of layout touches it. -/
namespace HttpOrigin

structure ByteQueue where
  /-- The data: its consumed part, then the unconsumed bytes. -/
  data : Array UInt8
  position : Nat
  capacity : Nat
  deriving DecidableEq, Repr

namespace ByteQueue

def empty : ByteQueue := ⟨#[], 0, chunkSize⟩

instance : Inhabited ByteQueue := ⟨empty⟩

def toList (b : ByteQueue) : Bytes := b.data.toList.drop b.position

def dataSize (b : ByteQueue) : Nat := b.data.size

def length (b : ByteQueue) : Nat := b.dataSize - b.position

def isEmpty (b : ByteQueue) : Bool := b.position == b.dataSize

def free (b : ByteQueue) : Nat := b.capacity - b.dataSize

def slack (b : ByteQueue) : Nat := b.free + b.position

def WellFormed (b : ByteQueue) : Prop := b.position ≤ b.dataSize ∧ b.dataSize ≤ b.capacity

instance (b : ByteQueue) : Decidable b.WellFormed := inferInstanceAs (Decidable (_ ∧ _))

theorem wellFormed_empty : WellFormed empty := by decide

@[simp] theorem toList_empty : toList empty = [] := rfl

@[simp] theorem length_toList (b : ByteQueue) : b.toList.length = b.length := by
  simp [toList, length, dataSize]

/-! ### Capacity -/

def enlarged (capacity : Nat) : Nat := capacity + max (capacity / 2) 1

theorem lt_enlarged (capacity : Nat) : capacity < enlarged capacity := by
  simp only [enlarged]
  omega

def capacityFor (needed capacity : Nat) : Nat :=
  if needed ≤ capacity then capacity else capacityFor needed (enlarged capacity)
termination_by needed - capacity
decreasing_by have := lt_enlarged capacity; omega

theorem le_capacityFor (needed capacity : Nat) : needed ≤ capacityFor needed capacity := by
  fun_induction capacityFor needed capacity with
  | case1 => assumption
  | case2 _ _ ih => exact ih

def grow (b : ByteQueue) : ByteQueue := { b with capacity := enlarged b.capacity }

def reserve (b : ByteQueue) (n : Nat) : ByteQueue :=
  { b with capacity := capacityFor (b.dataSize + n) b.capacity }

def isTight (b : ByteQueue) : Bool := b.capacity < b.dataSize + chunkSize / 2

def loosen (b : ByteQueue) : ByteQueue := if b.isTight then b.grow else b

def halveSlack (b : ByteQueue) : ByteQueue where
  data := b.data.extract b.position b.dataSize
  position := 0
  capacity := b.capacity - b.slack / 2

def trim (b : ByteQueue) : ByteQueue := if b.slack > chunkSize then b.halveSlack else b

@[simp] theorem toList_grow (b : ByteQueue) : b.grow.toList = b.toList := rfl

@[simp] theorem toList_reserve (b : ByteQueue) (n : Nat) : (b.reserve n).toList = b.toList := rfl

@[simp] theorem toList_loosen (b : ByteQueue) : b.loosen.toList = b.toList := by
  unfold loosen
  split <;> rfl

@[simp] theorem toList_halveSlack (b : ByteQueue) : b.halveSlack.toList = b.toList := by
  simp [halveSlack, toList, dataSize, List.take_of_length_le]

@[simp] theorem toList_trim (b : ByteQueue) : b.trim.toList = b.toList := by
  unfold trim
  split
  · exact toList_halveSlack b
  · rfl

theorem WellFormed.reserve {b : ByteQueue} (h : b.WellFormed) (n : Nat) :
    (b.reserve n).WellFormed :=
  ⟨h.1, Nat.le_trans (Nat.le_add_right ..) (le_capacityFor (b.dataSize + n) b.capacity)⟩

theorem WellFormed.loosen {b : ByteQueue} (h : b.WellFormed) : b.loosen.WellFormed := by
  unfold ByteQueue.loosen
  split
  · exact ⟨h.1, Nat.le_trans h.2 (Nat.le_of_lt (lt_enlarged b.capacity))⟩
  · exact h

/-- Half of the slack is never more than what is free once the data stands at the start. -/
theorem WellFormed.trim {b : ByteQueue} (h : b.WellFormed) : b.trim.WellFormed := by
  unfold ByteQueue.trim
  split
  · have := h.1
    have := h.2
    simp only [WellFormed, halveSlack, slack, free, dataSize, Array.size_extract] at *
    omega
  · exact h

/-! ### Bytes in -/

def push (b : ByteQueue) (bytes : Bytes) : ByteQueue := { b with data := b.data ++ bytes.toArray }

def append (b : ByteQueue) (bytes : Bytes) : ByteQueue :=
  ((b.trim.reserve bytes.length).push bytes).loosen

theorem toList_push {b : ByteQueue} (h : b.position ≤ b.dataSize) (bytes : Bytes) :
    (b.push bytes).toList = b.toList ++ bytes := by
  simp only [push, toList, Array.toList_append]
  exact List.drop_append_of_le_length h

theorem WellFormed.append {b : ByteQueue} (h : b.WellFormed) (bytes : Bytes) :
    (b.append bytes).WellFormed := by
  refine WellFormed.loosen ⟨Nat.le_trans (h.trim.reserve bytes.length).1 ?_, ?_⟩
  · simp [push, dataSize]
  · have := le_capacityFor (b.trim.dataSize + bytes.length) b.trim.capacity
    simpa [push, dataSize, ByteQueue.reserve] using this

theorem toList_append {b : ByteQueue} (h : b.WellFormed) (bytes : Bytes) :
    (b.append bytes).toList = b.toList ++ bytes := by
  rw [append, toList_loosen, toList_push (h.trim.reserve _).1, toList_reserve, toList_trim]

def appendAll (b : ByteQueue) (pieces : List Bytes) : ByteQueue := pieces.foldl append b

theorem WellFormed.appendAll {b : ByteQueue} (h : b.WellFormed) (pieces : List Bytes) :
    (b.appendAll pieces).WellFormed := by
  induction pieces generalizing b with
  | nil => exact h
  | cons piece pieces ih => exact ih (h.append piece)

theorem toList_appendAll {b : ByteQueue} (h : b.WellFormed) (pieces : List Bytes) :
    (b.appendAll pieces).toList = b.toList ++ pieces.flatten := by
  induction pieces generalizing b with
  | nil => simp [ByteQueue.appendAll]
  | cons piece pieces ih =>
    have := ih (h.append piece)
    rw [toList_append h] at this
    simpa [ByteQueue.appendAll] using this

/-! ### Bytes out -/

def truncate (b : ByteQueue) (n : Nat) : ByteQueue :=
  if n < b.length then { b with data := b.data.take (b.position + n) } else b

def skip (b : ByteQueue) (n : Nat) : ByteQueue := { b with position := b.position + n }

def take? (b : ByteQueue) (n : Nat) : Option (Bytes × ByteQueue) :=
  if b.length < n then none else some (b.toList.take n, b.skip n)

@[simp] theorem toList_truncate (b : ByteQueue) (n : Nat) :
    (b.truncate n).toList = b.toList.take n := by
  unfold truncate
  split
  · simp [toList, List.drop_take]
  · rename_i h
    rw [List.take_of_length_le]
    rw [length_toList]
    omega

theorem WellFormed.truncate {b : ByteQueue} (h : b.WellFormed) (n : Nat) :
    (b.truncate n).WellFormed := by
  have := h.1
  have := h.2
  unfold ByteQueue.truncate
  split
  · simp only [WellFormed, length, dataSize, Array.take_eq_extract, Array.size_extract] at *
    omega
  · exact h

theorem WellFormed.skip {b : ByteQueue} (h : b.WellFormed) {n : Nat} (hn : n ≤ b.length) :
    (b.skip n).WellFormed := by
  have := h.1
  have := h.2
  simp only [WellFormed, ByteQueue.skip, length, dataSize] at *
  omega

@[simp] theorem toList_skip (b : ByteQueue) (n : Nat) : (b.skip n).toList = b.toList.drop n := by
  simp [skip, toList, List.drop_drop]

end ByteQueue

end HttpOrigin
