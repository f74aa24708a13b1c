import WireCodec.Format.Basic

/-!
# The fast format

Fixed widths and no ordering rule: a length is eight bytes, a variant index four,
lowest first. Entries stay in the order they come in and keys are not compared,
so one map may have several encodings.
-/
namespace WireCodec.Format

namespace Fast

/-- Longer lengths would read as negative in a signed word. -/
def maxLength : Nat := 0x7FFFFFFFFFFFFFFF

def encodeLength (n : Nat) : Except Error Bytes :=
  if n ≤ maxLength then .ok (Bytes.ofNat 8 n) else .error (.lengthOutOfRange n)

def decodeLength : Reading Nat := do
  let n := Bytes.toNat (← Cursor.take 8)
  if n ≤ maxLength then pure n else throw (.lengthOutOfRange n)

def decodeVariantIndex : Reading UInt32 :=
  return .ofNat (Bytes.toNat (← Cursor.take 4))

end Fast

def fast : Format where
  maxContainerDepth := UInt64.size - 1
  maxLength := Fast.maxLength
  encodeLength := Fast.encodeLength
  decodeLength := Fast.decodeLength
  encodeVariantIndex i := .ok (Bytes.ofNat 4 i.toNat)
  decodeVariantIndex := Fast.decodeVariantIndex
  sortEntries es := es
  checkKeyOrder _ _ := .ok ()

end WireCodec.Format
