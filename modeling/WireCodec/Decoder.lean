import WireCodec.Config
import WireCodec.Depth
import WireCodec.Primitive

/-!
# Decoding

A decoder reads values off an input and keeps count of open containers. Bytes
once read are looked at again only to compare the keys of a map.
-/
namespace WireCodec

structure Decoder where
  cursor : Cursor
  depth : DepthBudget
  deriving DecidableEq, Repr

abbrev Decoding := EStateM Error Decoder

instance : HasDepth Decoder := ⟨Decoder.depth, fun d b => ⟨d.cursor, b⟩⟩

namespace Decoder

/-- A decoder with the default depth, or the format's limit where that is smaller. -/
def start (F : Format) (input : Bytes) : Decoder :=
  ⟨.start input, .full (min F.maxContainerDepth Config.defaultDepth)⟩

def withConfig (F : Format) (input : Bytes) (c : Config) : Except Error Decoder := do
  c.validate F
  return ⟨.start input, .full c.maxContainerDepth⟩

/-- The read position. -/
def offset (d : Decoder) : Nat := d.cursor.offset
def remaining (d : Decoder) : Nat := d.cursor.remaining
def isFinished (d : Decoder) : Bool := d.cursor.isEmpty

/-- Fails if input is left over. -/
def finish (d : Decoder) : Except Error Unit :=
  if 0 < d.remaining then .error (.trailingBytes d.remaining) else .ok ()

/-- A read that does not touch the depth. -/
def reading {α : Type} (m : Reading α) : Decoding α := fun d =>
  match m d.cursor with
  | .ok a c => .ok a ⟨c, d.depth⟩
  | .error e c => .error e ⟨c, d.depth⟩

variable (F : Format)

def read (p : Primitive) : Decoding p.Val := reading (p.read F)

/-- A variant index that must be one of `count`. -/
def readVariant (count : Nat) : Decoding (Fin count) := do
  let i ← reading F.decodeVariantIndex
  if h : i.toNat < count then pure ⟨i.toNat, h⟩
  else throw (.invalidValue "variant index" i.toNat)

/-- The input from `a` up to `b`, all of which must have been read. -/
def consumed (a b : Nat) : Decoding Bytes := fun d =>
  if a ≤ b ∧ b ≤ d.offset then .ok (d.cursor.input.extract a b) d
  else .error (.invalidRange "map key" a b d.offset) d

/-- Holds two keys, each a stretch of input already read, against the format's order. -/
def checkKeys (a b c d : Nat) : Decoding Unit := do
  let key₁ ← consumed a b
  let key₂ ← consumed c d
  match F.checkKeyOrder key₁ key₂ with
  | .ok () => pure ()
  | .error e => throw e

end Decoder

end WireCodec
