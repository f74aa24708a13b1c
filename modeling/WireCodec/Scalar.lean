import WireCodec.Format.Basic
import WireCodec.Number

/-!
# Scalars

The values that open no container: the unit, truth values, fixed-width numbers,
characters, texts and blobs. `write` gives the bytes of a scalar and fails only
when the format refuses the length of a text or blob; `read` takes a scalar off
the front of an input and accepts one spelling of each.
-/
namespace WireCodec

inductive Precision where
  | single
  | double
  deriving DecidableEq, Repr

def Precision.width : Precision → Width
  | single => .w32
  | double => .w64

inductive Scalar where
  | unit
  | bool
  | uint (w : Width)
  | int (w : Width)
  | float (p : Precision)
  | char
  | text
  | blob
  deriving DecidableEq, Repr

namespace Scalar

/-- Numbers are bit patterns, so floats are told apart by their bits. -/
def Val : Scalar → Type
  | unit => Unit
  | bool => Bool
  | uint w => BitVec w.bits
  | int w => BitVec w.bits
  | float p => BitVec p.width.bits
  | char => Char
  | text => String
  | blob => Bytes

/-- The order of keys. Texts compare by code point, which is the order of their bytes. -/
def compare : (s : Scalar) → s.Val → s.Val → Ordering
  | unit, _, _ => .eq
  | bool, (a : Bool), (b : Bool) => Ord.compare a b
  | uint _, a, b => Ord.compare (BitVec.toNat a) (BitVec.toNat b)
  | int _, a, b => Ord.compare (BitVec.toInt a) (BitVec.toInt b)
  | float _, a, b => Ord.compare (BitVec.toNat a) (BitVec.toNat b)
  | char, (a : Char), (b : Char) => Ord.compare a b
  | text, a, b => Ord.compare (String.toList a) (String.toList b)
  | blob, (a : Bytes), (b : Bytes) => Ord.compare a b

variable (F : Format)

/-- Bytes behind their count. -/
def writeBlob (bs : Bytes) : Except Error Bytes := return (← F.encodeLength bs.length) ++ bs

def write : (s : Scalar) → s.Val → Except Error Bytes
  | unit, _ => .ok []
  | bool, b => .ok [Bool.toUInt8 b]
  | uint w, x => .ok (w.encode x)
  | int w, x => .ok (w.encode x)
  | float p, x => .ok (p.width.encode x)
  | char, c => .ok (Utf8.encodeChar c)
  | text, s => writeBlob F (Utf8.encode s)
  | blob, bs => writeBlob F bs

/-- No third byte stands for a truth value. -/
def readBool : Reading Bool := do
  let b ← Cursor.byte
  if b = 0 then pure false
  else if b = 1 then pure true
  else throw (.invalidValue "bool" b.toNat)

def readNumber (w : Width) : Reading (BitVec w.bits) := return w.decode (← Cursor.take w.bytes)

/-- Widens `seen` by at most `n` bytes until it is one scalar. Fails as soon as no scalar
begins with the bytes seen, all of them at or after `start`. -/
def readCharFrom (start : Nat) : (n : Nat) → (seen : Bytes) → Reading Char
  | 0, _ => throw (.invalidChar start)
  | n + 1, seen => do
    let seen := seen ++ [← Cursor.byte]
    match Utf8.chars seen with
    | .ok [c] => pure c
    | .ok _ => throw (.invalidChar start)
    | .error e => if e.errorLen.isSome then throw (.invalidChar start) else readCharFrom start n seen

def readChar : Reading Char := do readCharFrom (← get).offset 4 []

def readBlob : Reading Bytes := do Cursor.take (← F.readLength)

/-- A text that is no UTF-8 is reported at its first byte, though the bytes have been read by then. -/
def readText : Reading String := do
  let n ← F.readLength
  let start := (← get).offset
  match Utf8.decode (← Cursor.take n) with
  | .ok s => pure s
  | .error e => throw (.invalidUtf8 start e)

def read : (s : Scalar) → Reading s.Val
  | unit => pure ()
  | bool => readBool
  | uint w => readNumber w
  | int w => readNumber w
  | float p => readNumber p.width
  | char => readChar
  | text => readText F
  | blob => readBlob F

end Scalar

end WireCodec
