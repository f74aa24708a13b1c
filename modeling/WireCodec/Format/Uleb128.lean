import WireCodec.Cursor

/-!
# ULEB128

Numbers below 2^32 in base 128, lowest group first. Every byte but the last has
its top bit set, so five bytes are enough. Only the shortest form is read: a last
group of zero is refused unless it is the only one.
-/
namespace WireCodec.Uleb128

/-- `v` in at most `n + 1` groups. -/
def groups : Nat → Nat → Bytes
  | 0, v => [.ofNat v]
  | n + 1, v => if v < 128 then [.ofNat v] else .ofNat (128 + v % 128) :: groups n (v / 128)

def encode (v : UInt32) : Bytes := groups 4 v.toNat

def padded : Error := .malformed "ULEB128" "non-canonical encoding"
def overflow : Error := .malformed "ULEB128" "overflow while parsing uint32 value"

/-- Reads at most `n` more groups, the next of which counts `weight` times. -/
def decodeFrom (weight value : Nat) : Nat → Reading UInt32
  | 0 => throw overflow
  | n + 1 => do
    let b ← Cursor.byte
    let digit := b.toNat % 128
    let total := value + weight * digit
    if b.toNat < 128 then
      if weight ≠ 1 ∧ digit = 0 then throw padded
      else if total < UInt32.size then pure (.ofNat total)
      else throw overflow
    else decodeFrom (weight * 128) total n

def decode : Reading UInt32 := decodeFrom 1 0 5

theorem groups_ne_nil (n v : Nat) : groups n v ≠ [] := by
  cases n <;> simp only [groups]
  · simp
  · split <;> simp

theorem length_groups_le (n v : Nat) : (groups n v).length ≤ n + 1 := by
  induction n generalizing v with
  | zero => simp [groups]
  | succ n ih => simp only [groups]; split <;> simp [ih]

end WireCodec.Uleb128
