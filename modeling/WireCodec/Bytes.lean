/-!
# Byte strings

A byte string is a list of bytes, so that every statement about a buffer or an
input is a statement about lists. Numbers meet byte strings in base 256, lowest
digit first: `ofNat` and `toNat` are inverse to each other on the numbers that
fit the given count of digits and on the byte strings of that length.
-/
namespace WireCodec

abbrev Bytes := List UInt8

namespace Bytes

/-- The `n` low-order bytes of a number, lowest first. Higher bytes are dropped. -/
def ofNat : Nat → Nat → Bytes
  | 0, _ => []
  | n + 1, v => UInt8.ofNat v :: ofNat n (v / 256)

/-- The number whose bytes, lowest first, are the given ones. -/
def toNat : Bytes → Nat
  | [] => 0
  | b :: bs => b.toNat + 256 * toNat bs

@[simp] theorem ofNat_zero (v : Nat) : ofNat 0 v = [] := rfl
@[simp] theorem ofNat_succ (n v : Nat) :
    ofNat (n + 1) v = UInt8.ofNat v :: ofNat n (v / 256) := rfl
@[simp] theorem toNat_nil : toNat [] = 0 := rfl
@[simp] theorem toNat_cons (b : UInt8) (bs : Bytes) :
    toNat (b :: bs) = b.toNat + 256 * toNat bs := rfl

@[simp] theorem length_ofNat (n v : Nat) : (ofNat n v).length = n := by
  induction n generalizing v <;> simp_all

/-- A byte string is told by its number and its length. -/
theorem ofNat_toNat (bs : Bytes) : ofNat bs.length (toNat bs) = bs := by
  induction bs with
  | nil => rfl
  | cons b bs ih =>
    have hb := b.toNat_lt
    have hd : (b.toNat + 256 * toNat bs) / 256 = toNat bs := by omega
    have hm : UInt8.ofNat (b.toNat + 256 * toNat bs) = b := by
      apply UInt8.toNat_inj.1
      rw [UInt8.toNat_ofNat']
      omega
    simp only [List.length_cons, toNat_cons, ofNat_succ, hd, hm, ih]

end Bytes

end WireCodec
