import PackedRecord.Error

/-!
# Limits

Bounds on what is encoded and decoded, which keep hostile input from exhausting the stack or the
memory. `push_of_room_eq_zero` and `push_of_room_pos` say that a path can be continued exactly where
there is room.
-/

namespace PackedRecord

/-- The bounds of a run. -/
structure Limits where
  /-- The greatest depth of a value; a field and an element are one step each. -/
  recursion : Nat := 32
  /-- The greatest number of elements of a decoded sequence. -/
  collect : Nat := 65536
  /-- The greatest number of bytes of a decoded string. -/
  blob : Nat := 16777216
  deriving DecidableEq, Repr

namespace Limits

/-- The path one step further, unless that is too deep. -/
def push (limits : Limits) (path : Path) (step : Step) : Except Error Path :=
  if path.depth < limits.recursion then .ok (step :: path)
  else .error (.located path .recursionLimit)

/-- Refuses a sequence of `length` elements that is too long. -/
def checkCollect (limits : Limits) (path : Path) (length : Nat) : Except Error Unit :=
  if length ≤ limits.collect then .ok () else .error (.located path (.collectLimit length))

/-- Refuses a string of `length` bytes that is too long. -/
def checkBlob (limits : Limits) (path : Path) (length : Nat) : Except Error Unit :=
  if length ≤ limits.blob then .ok () else .error (.located path (.blobLimit length))

/-- How many steps further down a value may lie. -/
def room (limits : Limits) (path : Path) : Nat :=
  limits.recursion - path.depth

/-- A step down takes one level of the room. -/
@[simp] theorem room_cons (limits : Limits) (step : Step) (path : Path) :
    limits.room (step :: path) = limits.room path - 1 := by
  simp only [room, Path.depth_cons]
  omega

/-- Without room no step further down is allowed, and the fault is at the path itself. -/
theorem push_of_room_eq_zero {limits : Limits} {path : Path} (h : limits.room path = 0)
    (step : Step) : limits.push path step = .error (.located path .recursionLimit) := by
  unfold room at h
  rw [push, if_neg (by omega)]

/-- With room left, every step further down is allowed. -/
theorem push_of_room_pos {limits : Limits} {path : Path} (h : 0 < limits.room path) (step : Step) :
    limits.push path step = .ok (step :: path) := by
  unfold room at h
  rw [push, if_pos (by omega)]

end Limits

end PackedRecord
