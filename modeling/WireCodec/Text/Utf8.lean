import WireCodec.Bytes

/-!
# UTF-8

`encodeChar` writes a scalar value in its shortest form. `front` looks at the
front of a byte string and tells three cases apart: a scalar stands there, the
bytes cannot begin any scalar, or they end inside one. `chars` reads a whole text
by repeated `front` and says how much of a broken text is sound.

Only shortest forms are read: the lead byte decides how many bytes follow and in
which range the first of them must lie, and those ranges leave out over-long
forms, surrogates and everything above U+10FFFF.
-/
namespace WireCodec

/-- Where a text stops being UTF-8. `errorLen` counts the bytes up to the first one
that cannot continue a sequence; it is absent when the text ends inside one. -/
structure Utf8Error where
  validUpTo : Nat
  errorLen : Option Nat
  deriving DecidableEq, Repr

def Utf8Error.message (e : Utf8Error) : String :=
  match e.errorLen with
  | some n => s!"invalid utf-8 sequence of {n} bytes from index {e.validUpTo}"
  | none => s!"incomplete utf-8 byte sequence from index {e.validUpTo}"

namespace Utf8

def encodeChar (c : Char) : Bytes :=
  let n := c.toNat
  if n < 0x80 then [.ofNat n]
  else if n < 0x800 then [.ofNat (0xC0 + n / 64), .ofNat (0x80 + n % 64)]
  else if n < 0x10000 then
    [.ofNat (0xE0 + n / 4096), .ofNat (0x80 + n / 64 % 64), .ofNat (0x80 + n % 64)]
  else
    [.ofNat (0xF0 + n / 262144), .ofNat (0x80 + n / 4096 % 64), .ofNat (0x80 + n / 64 % 64),
      .ofNat (0x80 + n % 64)]

def encode (s : String) : Bytes := s.toList.flatMap encodeChar

/-- What a lead byte announces: its own share of the scalar, how many bytes follow,
and the range of the first of them. -/
structure Lead where
  value : Nat
  tail : Nat
  low : Nat
  high : Nat
  deriving DecidableEq, Repr

def lead? (b : UInt8) : Option Lead :=
  let n := b.toNat
  if n < 0x80 then some ⟨n, 0, 0x80, 0xBF⟩
  else if n < 0xC2 then none
  else if n < 0xE0 then some ⟨n - 0xC0, 1, 0x80, 0xBF⟩
  else if n < 0xF0 then
    some ⟨n - 0xE0, 2, if n = 0xE0 then 0xA0 else 0x80, if n = 0xED then 0x9F else 0xBF⟩
  else if n < 0xF5 then
    some ⟨n - 0xF0, 3, if n = 0xF0 then 0x90 else 0x80, if n = 0xF4 then 0x8F else 0xBF⟩
  else none

inductive Front where
  | scalar (c : Char) (size : Nat)
  | invalid (size : Nat)
  | incomplete
  deriving DecidableEq, Repr

/-- Reads `tail` more bytes into `value`, the first of them within `low` and `high`.
`seen` bytes of the sequence came before. -/
def continued (value seen : Nat) : (tail low high : Nat) → Bytes → Front
  | 0, _, _, _ => .scalar (Char.ofNat value) seen
  | _ + 1, _, _, [] => .incomplete
  | tail + 1, low, high, b :: bs =>
    if low ≤ b.toNat ∧ b.toNat ≤ high then
      continued (value * 64 + (b.toNat - 0x80)) (seen + 1) tail 0x80 0xBF bs
    else .invalid seen

def front : Bytes → Front
  | [] => .incomplete
  | b :: bs =>
    match lead? b with
    | some l => continued l.value 1 l.tail l.low l.high bs
    | none => .invalid 1

/-- The scalars of a text whose first `skip` bytes belong to a scalar already read and
whose first unread byte has index `index`. -/
def charsFrom (index : Nat) : (skip : Nat) → Bytes → Except Utf8Error (List Char)
  | _, [] => .ok []
  | skip + 1, _ :: bs => charsFrom index skip bs
  | 0, b :: bs =>
    match front (b :: bs) with
    | .scalar c size => (charsFrom (index + size) (size - 1) bs).map (c :: ·)
    | .invalid size => .error ⟨index, some size⟩
    | .incomplete => .error ⟨index, none⟩

def chars (bs : Bytes) : Except Utf8Error (List Char) := charsFrom 0 0 bs

def decode (bs : Bytes) : Except Utf8Error String := (chars bs).map String.ofList

theorem charsFrom_skip (index skip : Nat) (bs : Bytes) :
    charsFrom index skip bs = charsFrom index 0 (bs.drop skip) := by
  induction skip generalizing bs with
  | zero => rfl
  | succ skip ih => cases bs <;> simp [charsFrom, ih]

theorem encodeChar_ne_nil (c : Char) : encodeChar c ≠ [] := by
  simp only [encodeChar]
  repeat' split
  all_goals simp

end Utf8

end WireCodec
