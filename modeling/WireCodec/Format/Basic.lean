import WireCodec.Cursor

/-!
# Formats

A format decides what the codec leaves open: how a length and a variant index are
written and read, in which order the entries of a map go on the wire, and which
order of two neighbouring keys is accepted. The limits bound the lengths a
decoder accepts and the container depth a codec may be set up with.
-/
namespace WireCodec

structure Format where
  maxContainerDepth : Nat
  maxLength : Nat
  encodeLength : Nat → Except Error Bytes
  decodeLength : Reading Nat
  encodeVariantIndex : UInt32 → Except Error Bytes
  decodeVariantIndex : Reading UInt32
  /-- Puts whole entries, key bytes followed by value bytes, into wire order. -/
  sortEntries : List Bytes → List Bytes
  /-- Fails unless the first key may stand right before the second. -/
  checkKeyOrder : Bytes → Bytes → Except Error Unit

/-- The length that stands in front of a text, a blob or the elements of a container. It is
held against the limit whatever the format's own reading accepts. -/
def Format.readLength (F : Format) : Reading Nat := do
  let n ← F.decodeLength
  if n ≤ F.maxLength then pure n else throw (.lengthOutOfRange n)

end WireCodec
