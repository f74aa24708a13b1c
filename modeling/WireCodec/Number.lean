import WireCodec.Bytes

/-!
# Fixed-width numbers

Integers and floats are bit patterns of one of five widths. Signedness and the
meaning of a float's bits play no part on the wire: a pattern of `w` bits is
written as its `w / 8` bytes, lowest first. A pattern of 128 bits travels as two
64-bit words, the low word first, which comes to the same sixteen bytes.
-/
namespace WireCodec

inductive Width where
  | w8 | w16 | w32 | w64 | w128
  deriving DecidableEq, Repr

namespace Width

def bits : Width → Nat
  | w8 => 8
  | w16 => 16
  | w32 => 32
  | w64 => 64
  | w128 => 128

def bytes : Width → Nat
  | w8 => 1
  | w16 => 2
  | w32 => 4
  | w64 => 8
  | w128 => 16

end Width

/-- A 128-bit pattern as two words. -/
structure WordPair where
  low : UInt64
  high : UInt64
  deriving DecidableEq, Repr

namespace WordPair

def ofBits (x : BitVec 128) : WordPair := ⟨UInt64.ofNat x.toNat, UInt64.ofNat (x.toNat / UInt64.size)⟩

def toBits (p : WordPair) : BitVec 128 := BitVec.ofNat 128 (p.low.toNat + UInt64.size * p.high.toNat)

def toBytes (p : WordPair) : Bytes := Bytes.ofNat 8 p.low.toNat ++ Bytes.ofNat 8 p.high.toNat

/-- Reads the low word from the first eight bytes and the high word from the rest. -/
def ofBytes (bs : Bytes) : WordPair :=
  ⟨UInt64.ofNat (Bytes.toNat (bs.take 8)), UInt64.ofNat (Bytes.toNat (bs.drop 8))⟩

@[simp] theorem length_toBytes (p : WordPair) : p.toBytes.length = 16 := by simp [toBytes]

end WordPair

namespace Width

/-- A pattern of any width goes on the wire lowest byte first. -/
def encode : (w : Width) → BitVec w.bits → Bytes
  | w128, x => (WordPair.ofBits x).toBytes
  | w8, x => Bytes.ofNat 1 x.toNat
  | w16, x => Bytes.ofNat 2 x.toNat
  | w32, x => Bytes.ofNat 4 x.toNat
  | w64, x => Bytes.ofNat 8 x.toNat

/-- Meant for exactly `w.bytes` bytes. -/
def decode : (w : Width) → Bytes → BitVec w.bits
  | w128, bs => (WordPair.ofBytes bs).toBits
  | w8, bs => BitVec.ofNat 8 (Bytes.toNat bs)
  | w16, bs => BitVec.ofNat 16 (Bytes.toNat bs)
  | w32, bs => BitVec.ofNat 32 (Bytes.toNat bs)
  | w64, bs => BitVec.ofNat 64 (Bytes.toNat bs)

@[simp] theorem length_encode (w : Width) (x : BitVec w.bits) : (w.encode x).length = w.bytes := by
  cases w <;> simp [encode, bytes]

end Width

end WireCodec
