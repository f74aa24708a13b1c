import WireCodec.Presence
import WireCodec.Scalar

/-!
# Primitives

The steps in which every value is written and read: a scalar, the presence tag of
an option, a length or a variant index. What `write` gives for a primitive is what
`read` of the same primitive takes back.
-/
namespace WireCodec

inductive Primitive where
  | scalar (s : Scalar)
  | presence
  | length
  | variantIndex
  deriving DecidableEq, Repr

namespace Primitive

def Val : Primitive → Type
  | scalar s => s.Val
  | presence => Bool
  | length => Nat
  | variantIndex => UInt32

variable (F : Format)

/-- The bytes of a primitive. It fails only where the format refuses a length. -/
def write : (p : Primitive) → p.Val → Except Error Bytes
  | scalar s, v => s.write F v
  | presence, b => .ok [(Presence.ofBool b).byte]
  | length, n => F.encodeLength n
  | variantIndex, i => F.encodeVariantIndex i

/-- The tag as a truth value. The byte has been read even where it turns out to be no tag. -/
def readPresence : Reading Bool := do
  match Presence.ofByte (← Cursor.byte) with
  | .ok p => pure p.toBool
  | .error e => throw e

def read : (p : Primitive) → Reading p.Val
  | scalar s => s.read F
  | presence => readPresence
  | length => F.readLength
  | variantIndex => F.decodeVariantIndex

end Primitive

end WireCodec
