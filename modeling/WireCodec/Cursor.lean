import WireCodec.Error

/-!
# Reading bytes

A cursor walks forward over an input that never changes. A read that asks for
more bytes than remain fails where it stands.
-/
namespace WireCodec

structure Cursor where
  input : Bytes
  offset : Nat
  deriving DecidableEq, Repr

abbrev Reading := EStateM Error Cursor

namespace Cursor

def start (input : Bytes) : Cursor := ⟨input, 0⟩
/-- How many bytes are still to be read. -/
def remaining (c : Cursor) : Nat := c.input.length - c.offset
def rest (c : Cursor) : Bytes := c.input.drop c.offset
def isEmpty (c : Cursor) : Bool := c.remaining == 0
def advance (c : Cursor) (n : Nat) : Cursor := ⟨c.input, c.offset + n⟩

/-- All of the bytes or none. -/
def take (n : Nat) : Reading Bytes := fun c =>
  if n ≤ c.remaining then .ok (c.rest.take n) (c.advance n)
  else .error (.truncated c.offset n c.remaining) c

/-- The next byte. Without one it fails as taking a slice does. -/
def byte : Reading UInt8 := fun c =>
  match c.rest with
  | b :: _ => .ok b (c.advance 1)
  | [] => .error (.truncated c.offset 1 0) c

@[simp] theorem length_rest (c : Cursor) : c.rest.length = c.remaining := by
  simp [rest, remaining]
@[simp] theorem offset_advance (c : Cursor) (n : Nat) : (c.advance n).offset = c.offset + n := rfl
@[simp] theorem rest_advance (c : Cursor) (n : Nat) : (c.advance n).rest = c.rest.drop n := by
  simp [rest, advance]

/-- Reading one byte is taking a slice of length one. -/
theorem take_one (c : Cursor) : take 1 c = (do return [← byte] : Reading Bytes) c := by
  have h := length_rest c
  simp only [take, byte, bind, pure, EStateM.bind, EStateM.pure]
  cases hr : c.rest with
  | nil =>
    rw [hr] at h
    simp only [List.length_nil] at h
    simp [← h]
  | cons b bs =>
    rw [hr, List.length_cons] at h
    rw [if_pos (by omega)]
    simp

end Cursor

end WireCodec
