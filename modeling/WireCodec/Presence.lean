import WireCodec.Error

/-!
# Presence tags

The byte in front of an optional value's payload.
-/
namespace WireCodec

inductive Presence where
  | absent
  | present
  deriving DecidableEq, Repr

namespace Presence

def byte : Presence → UInt8
  | absent => 0
  | present => 1

/-- No third byte stands for a tag. -/
def ofByte (b : UInt8) : Except Error Presence :=
  if b = 0 then .ok absent
  else if b = 1 then .ok present
  else .error (.invalidValue "Option tag" b.toNat)

def ofBool : Bool → Presence
  | false => absent
  | true => present

def toBool : Presence → Bool
  | absent => false
  | present => true

end Presence

end WireCodec
