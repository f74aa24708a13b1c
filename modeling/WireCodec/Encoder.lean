import WireCodec.Config
import WireCodec.Depth
import WireCodec.Primitive

/-!
# Encoding

An encoder appends to a buffer and never changes what it has written, with one
exception: `sortEntries` puts the entries of a map, which stand at the end of the
buffer, into the format's wire order. The caller says where each entry starts.
-/
namespace WireCodec

structure Encoder where
  buffer : Bytes
  depth : DepthBudget
  deriving DecidableEq, Repr

abbrev Encoding := EStateM Error Encoder

instance : HasDepth Encoder := ⟨Encoder.depth, fun e b => ⟨e.buffer, b⟩⟩

namespace Encoder

/-- An encoder with the default depth, or the format's limit where that is smaller. -/
def start (F : Format) : Encoder := ⟨[], .full (min F.maxContainerDepth Config.defaultDepth)⟩

def withConfig (F : Format) (c : Config) : Except Error Encoder := do
  c.validate F
  return ⟨[], .full c.maxContainerDepth⟩

/-- The write position. -/
def offset (e : Encoder) : Nat := e.buffer.length

/-- Drops what was written and leaves the depth as it is. -/
def clear (e : Encoder) : Encoder := ⟨[], e.depth⟩

def append (bs : Bytes) : Encoding Unit := modify fun e => ⟨e.buffer ++ bs, e.depth⟩

def write (F : Format) (p : Primitive) (v : p.Val) : Encoding Unit :=
  match p.write F v with
  | .ok bs => append bs
  | .error e => throw e

/-- The first entry that ends before it starts or ends past `limit`. Each entry ends where
the next one starts, the last one at `limit`. -/
def firstBad? (limit : Nat) : List Nat → Option (Nat × Nat)
  | [] => none
  | [a] => if a ≤ limit then none else some (a, limit)
  | a :: b :: os => if a ≤ b ∧ b ≤ limit then firstBad? limit (b :: os) else some (a, b)

def entriesAt (buffer : Bytes) : List Nat → List Bytes
  | [] => []
  | [a] => [buffer.drop a]
  | a :: b :: os => (buffer.drop a).take (b - a) :: entriesAt buffer (b :: os)

/-- Reorders the entries that start at `offsets` and fill the buffer to its end. Nothing
moves if an entry is bad. -/
def sortEntries (F : Format) (offsets : List Nat) : Encoding Unit := fun e =>
  match firstBad? e.buffer.length offsets with
  | some (a, b) => .error (.invalidRange "map entry" a b e.buffer.length) e
  | none =>
    match offsets with
    | a :: _ :: _ =>
      .ok () ⟨e.buffer.take a ++ (F.sortEntries (entriesAt e.buffer offsets)).flatten, e.depth⟩
    | _ => .ok () e

/-- The entries cover the buffer from the first of them on. -/
theorem flatten_entriesAt {buffer : Bytes} {a : Nat} {os : List Nat}
    (h : firstBad? buffer.length (a :: os) = none) :
    (entriesAt buffer (a :: os)).flatten = buffer.drop a := by
  induction os generalizing a with
  | nil => simp [entriesAt]
  | cons b os ih =>
    simp only [firstBad?] at h
    split at h
    · rename_i hab
      rw [entriesAt, List.flatten_cons, ih h]
      have : b = a + (b - a) := by omega
      conv => lhs; rhs; rw [this, ← List.drop_drop]
      exact List.take_append_drop ..
    · cases h

end Encoder

end WireCodec
