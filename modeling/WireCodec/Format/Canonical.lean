import WireCodec.Format.Basic
import WireCodec.Format.Uleb128

/-!
# The canonical format

One encoding per value. Lengths and variant indexes are shortest ULEB128, entries
go on the wire in ascending order of their bytes, and a map whose keys do not
ascend strictly is refused.
-/
namespace WireCodec.Format

namespace Canonical

/-- The largest length that leaves the top bit of a 32-bit word free. -/
def maxLength : Nat := 0x7FFFFFFF

def encodeLength (n : Nat) : Except Error Bytes :=
  if n ≤ maxLength then .ok (Uleb128.encode (.ofNat n)) else .error (.lengthOutOfRange n)

def decodeLength : Reading Nat := do
  let n ← Uleb128.decode
  if n.toNat ≤ maxLength then pure n.toNat else throw (.lengthOutOfRange n.toNat)

/-- Entries are compared as wholes. Where no key is the front of another, the keys decide. -/
def sortEntries (es : List Bytes) : List Bytes := es.mergeSort fun a b => (compare a b).isLE

/-- Two equal keys are out of order too. -/
def checkKeyOrder (a b : Bytes) : Except Error Unit :=
  if compare a b = .lt then .ok () else .error .nonCanonicalOrder

end Canonical

def canonical : Format where
  maxContainerDepth := 500
  maxLength := Canonical.maxLength
  encodeLength := Canonical.encodeLength
  decodeLength := Canonical.decodeLength
  encodeVariantIndex i := .ok (Uleb128.encode i)
  decodeVariantIndex := Uleb128.decode
  sortEntries := Canonical.sortEntries
  checkKeyOrder := Canonical.checkKeyOrder

end WireCodec.Format
