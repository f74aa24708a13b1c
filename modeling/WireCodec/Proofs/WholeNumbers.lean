import WireCodec.Proofs.Decoding

/-!
# Whole numbers

A pattern of bits stands for a number from zero on, or for one in two's complement, where the upper
half of the patterns is below zero. Modulo `2 ^ n` it is the same number either way, so a width needs
one spelling only: byte `i` is digit `i` of that remainder in base 256. Numbers within the range of a
width differ by less than `2 ^ n`, so that each has its bytes to itself, and a decoder finds the one
whose bytes it is given. The words of a pattern of 128 bits are its digits in base `2 ^ 64`.
-/
namespace WireCodec

/-- What a pattern of bits stands for: a number from zero on, or one in two's complement. -/
inductive Sign where
  | unsigned
  | signed
  deriving DecidableEq, Repr

namespace Sign

variable {n : Nat}

def number : Sign → BitVec n → Int
  | unsigned, x => x.toNat
  | signed, x => x.toInt

def least (n : Nat) : Sign → Int
  | unsigned => 0
  | signed => -2 ^ (n - 1)

/-- There are as many numbers of `n` bits as patterns. -/
def InRange (s : Sign) (n : Nat) (z : Int) : Prop := s.least n ≤ z ∧ z < s.least n + 2 ^ n

instance (s : Sign) (n : Nat) (z : Int) : Decidable (s.InRange n z) :=
  inferInstanceAs (Decidable (_ ∧ _))

def scalar : Sign → Width → Scalar
  | unsigned, w => .uint w
  | signed, w => .int w

/-- The values of a scalar of either kind are the patterns. -/
def val : (s : Sign) → (w : Width) → BitVec w.bits ≃ (s.scalar w).Val
  | unsigned, w => Equiv.refl (BitVec w.bits)
  | signed, w => Equiv.refl (BitVec w.bits)

theorem natCast_toNat_lt (x : BitVec n) : (x.toNat : Int) < 2 ^ n := by exact_mod_cast x.isLt

/-- A sign makes no difference to the remainder. -/
theorem number_emod (s : Sign) (x : BitVec n) : s.number x % 2 ^ n = x.toNat := by
  have hmod : (x.toNat : Int) % 2 ^ n = x.toNat :=
    Int.emod_eq_of_lt (Int.natCast_nonneg _) (natCast_toNat_lt x)
  cases s with
  | unsigned => exact hmod
  | signed =>
    have hcast : ((2 ^ n : Nat) : Int) = 2 ^ n := by push_cast; rfl
    rw [number, BitVec.toInt_eq_toNat_bmod, ← hcast, Int.bmod_emod, hcast, hmod]

theorem inRange_number (s : Sign) (hn : 0 < n) (x : BitVec n) : s.InRange n (s.number x) := by
  cases s with
  | unsigned =>
    refine ⟨Int.natCast_nonneg _, ?_⟩
    rw [least, Int.zero_add]
    exact natCast_toNat_lt x
  | signed =>
    have hhalf : (2 : Int) ^ n = 2 ^ (n - 1) * 2 := by rw [← pow_succ, Nat.sub_add_cancel hn]
    have hlt := x.toInt_lt
    refine ⟨x.le_toInt, ?_⟩
    rw [least, number, hhalf]
    omega

/-- Within a range of `2 ^ n` numbers the remainder decides. -/
theorem eq_of_emod_eq {s : Sign} {y z : Int} (hy : s.InRange n y) (hz : s.InRange n z)
    (h : y % 2 ^ n = z % 2 ^ n) : y = z := by
  obtain ⟨hy, hy'⟩ := hy
  obtain ⟨hz, hz'⟩ := hz
  have hdvd : (2 : Int) ^ n ∣ y - z := Int.ModEq.dvd h.symm
  have habs : |y - z| < 2 ^ n := abs_lt.2 ⟨by omega, by omega⟩
  exact Int.sub_eq_zero.1 (Int.eq_zero_of_abs_lt_dvd hdvd habs)

theorem number_injective (s : Sign) : Function.Injective (s.number : BitVec n → Int) := by
  intro x y h
  have hx := s.number_emod x
  rw [h, s.number_emod y] at hx
  apply BitVec.eq_of_toNat_eq
  exact_mod_cast hx.symm

theorem number_ofInt {s : Sign} {z : Int} (hn : 0 < n) (hz : s.InRange n z) :
    s.number (BitVec.ofInt n z) = z := by
  have hpos : (0 : Int) < 2 ^ n := by positivity
  apply eq_of_emod_eq (s.inRange_number hn _) hz
  rw [number_emod, BitVec.toNat_ofInt]
  push_cast
  exact Int.toNat_of_nonneg (Int.emod_nonneg z hpos.ne')

theorem inRange_iff (s : Sign) (hn : 0 < n) (z : Int) :
    s.InRange n z ↔ ∃! x : BitVec n, s.number x = z := by
  constructor
  · intro hz
    have hx := number_ofInt hn hz
    exact ⟨BitVec.ofInt n z, hx, fun y hy => s.number_injective (hy.trans hx.symm)⟩
  · intro hx
    obtain ⟨x, rfl, -⟩ := hx
    exact s.inRange_number hn x

end Sign

namespace Width

variable {w : Width} {z : Int} {bs cs : Bytes}

/-- The bytes of a number modulo `2 ^ w.bits`: byte `i` is its digit `i` in base 256. -/
def Digits (w : Width) (z : Int) (bs : Bytes) : Prop :=
  bs.length = w.bits / 8 ∧
    ∀ (i : Nat) (h : i < bs.length), (bs[i].toNat : Int) = z % 2 ^ w.bits / 256 ^ i % 256

theorem digits_ofNat {k : Nat} (h : z % 2 ^ w.bits = k) : w.Digits z (Bytes.ofNat w.bytes k) := by
  refine ⟨by rw [Bytes.length_ofNat, bytes_eq], fun i hi => ?_⟩
  rw [Bytes.toNat_getElem_ofNat, h]
  push_cast
  rfl

theorem Digits.unique (hb : w.Digits z bs) (hc : w.Digits z cs) : bs = cs := by
  apply List.ext_getElem (hb.1.trans hc.1.symm)
  intro i hi hi'
  apply UInt8.toNat_inj.1
  exact_mod_cast (hb.2 i hi).trans (hc.2 i hi').symm

/-- The digits of a number are those of its remainder and of no other. -/
theorem digits_iff (h : bs.length = w.bytes) : w.Digits z bs ↔ z % 2 ^ w.bits = Bytes.toNat bs := by
  constructor
  · intro hd
    have hpos : (0 : Int) < 2 ^ w.bits := by positivity
    obtain ⟨k, hk⟩ := Int.eq_ofNat_of_zero_le (Int.emod_nonneg z hpos.ne')
    have hlt : (k : Int) < 2 ^ w.bits := hk ▸ Int.emod_lt_of_pos z hpos
    have hfit : k < 256 ^ w.bytes := by
      rw [← two_pow_bits]
      exact_mod_cast hlt
    rw [hd.unique (digits_ofNat hk), Bytes.toNat_ofNat, Nat.mod_eq_of_lt hfit, hk]
  · intro hz
    have hd := digits_ofNat hz
    rwa [← h, Bytes.ofNat_toNat] at hd

end Width

namespace WordPair

theorem low_eq (s : Sign) (x : BitVec 128) :
    ((ofBits x).low.toNat : Int) = s.number x % 2 ^ 64 := by
  have hmod := s.number_emod x
  rw [toNat_low_ofBits]
  push_cast
  omega

theorem high_eq (s : Sign) (x : BitVec 128) :
    ((ofBits x).high.toNat : Int) = s.number x % 2 ^ 128 / 2 ^ 64 := by
  have hlt := x.isLt
  rw [s.number_emod x, toNat_high_ofBits]
  push_cast
  omega

end WordPair

namespace Sign

open WordPair (ofBits ofBytes)

variable {w : Width} {bs : Bytes}

theorem digits_encode (s : Sign) (x : BitVec w.bits) : w.Digits (s.number x) (w.encode x) := by
  rw [Width.encode_eq]
  exact Width.digits_ofNat (s.number_emod x)

theorem digits_decode (s : Sign) (h : bs.length = w.bytes) (z : Int) :
    s.InRange w.bits z ∧ w.Digits z bs ↔ z = s.number (w.decode bs) := by
  have hmod : s.number (w.decode bs) % 2 ^ w.bits = Bytes.toNat bs := by
    rw [number_emod, Width.toNat_decode h]
  have hrange := s.inRange_number w.bits_pos (w.decode bs)
  rw [Width.digits_iff h, ← hmod]
  constructor
  · intro hz
    exact eq_of_emod_eq hz.1 hrange hz.2
  · intro hz
    subst hz
    exact ⟨hrange, rfl⟩

theorem write_val (s : Sign) (x : BitVec w.bits) (F : Format) (e : Encoder) :
    Encoder.write F (.scalar (s.scalar w)) (s.val w x) e =
      .ok () ⟨e.buffer ++ w.encode x, e.depth⟩ := by
  cases s <;> rfl

theorem read_val (s : Sign) (h : bs.length = w.bytes) (F : Format) {d : Decoder}
    (hd : bs <+: d.cursor.rest) : Decoder.read F (.scalar (s.scalar w)) d =
      .ok (s.val w (w.decode bs)) ⟨d.cursor.advance bs.length, d.depth⟩ := by
  obtain ⟨t, ht⟩ := hd
  have hread := Scalar.takes_readNumber_decode h d.cursor t ht.symm
  cases s <;> exact Decoder.reading_of_ok d.depth hread

/-- Every number of a width is written as its digits, lowest first, and read from them, with or
without a sign. Patterns of 128 bits, pairs of words and strings of sixteen bytes are the same thing,
and the words are the halves of the number. -/
theorem numbers_bit_exact (s : Sign) (w : Width) (F : Format) :
    (∀ z, s.InRange w.bits z ↔ ∃! x : BitVec w.bits, s.number x = z) ∧
    (∀ (x : BitVec w.bits) (e : Encoder),
      Encoder.write F (.scalar (s.scalar w)) (s.val w x) e =
        .ok () ⟨e.buffer ++ w.encode x, e.depth⟩ ∧
      w.Digits (s.number x) (w.encode x)) ∧
    (∀ (bs : Bytes) (d : Decoder), bs.length = w.bits / 8 → bs <+: d.cursor.rest →
      Decoder.read F (.scalar (s.scalar w)) d =
        .ok (s.val w (w.decode bs)) ⟨d.cursor.advance bs.length, d.depth⟩ ∧
      ∀ z, s.InRange w.bits z ∧ w.Digits z bs ↔ z = s.number (w.decode bs)) ∧
    (∀ x : BitVec 128,
      Width.w128.encode x = (ofBits x).toBytes ∧
      ofBits x = ⟨⟨x.setWidth 64⟩, ⟨(x >>> 64).setWidth 64⟩⟩ ∧
      ((ofBits x).low.toNat : Int) = s.number x % 2 ^ 64 ∧
      ((ofBits x).high.toNat : Int) = s.number x % 2 ^ 128 / 2 ^ 64 ∧
      (ofBits x).toBits = x) ∧
    (∀ p : WordPair,
      p.toBytes = Width.w64.encode p.low.toBitVec ++ Width.w64.encode p.high.toBitVec ∧
      p.toBits = p.high.toBitVec.setWidth 128 <<< 64 ||| p.low.toBitVec.setWidth 128 ∧
      ofBits p.toBits = p ∧
      ofBytes p.toBytes = p) ∧
    ∀ bs : Bytes, bs.length = 16 →
      Width.w128.decode bs = (ofBytes bs).toBits ∧ (ofBytes bs).toBytes = bs := by
  refine ⟨s.inRange_iff w.bits_pos, fun x e => ?_, fun bs d hbs hd => ?_, fun x => ?_, fun p => ?_,
    fun bs hbs => ?_⟩
  · exact ⟨s.write_val x F e, s.digits_encode x⟩
  · rw [← w.bytes_eq] at hbs
    exact ⟨s.read_val hbs F hd, s.digits_decode hbs⟩
  · exact ⟨rfl, WordPair.ofBits_eq_shift x, WordPair.low_eq s x, WordPair.high_eq s x,
      WordPair.toBits_ofBits x⟩
  · exact ⟨rfl, p.toBits_eq_or, p.ofBits_toBits, p.ofBytes_toBytes⟩
  · exact ⟨rfl, WordPair.toBytes_ofBytes hbs⟩

/-- The number before `-2 ^ 64`: a borrow reaches the high word, and the low one is full. -/
theorem numbers_bit_exact_across_words :
    let z : Int := -2 ^ 64 - 1
    let bs : Bytes := List.replicate 8 0xFF ++ 0xFE :: List.replicate 7 0xFF
    let d : Nat → Decoder := fun k => ⟨⟨9 :: bs ++ [7], k⟩, .full 0⟩
    signed.InRange 128 z ∧ (∃! x : BitVec 128, signed.number x = z) ∧
    bs.length = 16 ∧ bs <+: (d 1).cursor.rest ∧ Width.w128.Digits z bs ∧
    (∃ x : BitVec 128, signed.number x = z ∧
      Decoder.read FormatName.canonical.format (.scalar (.int .w128)) (d 1) = .ok x (d 17)) ∧
    (ofBytes bs).toBytes = bs := by
  intro z bs d
  obtain ⟨hnumbers, -, hread, -, -, hbytes⟩ :=
    numbers_bit_exact signed .w128 FormatName.canonical.format
  have hz : signed.InRange 128 z := by decide
  have hlen : bs.length = 16 := rfl
  have hrest : bs <+: (d 1).cursor.rest := by decide
  have hdigits : Width.w128.Digits z bs := ⟨rfl, by decide⟩
  obtain ⟨hrun, hunique⟩ := hread bs (d 1) hlen hrest
  have hnumber := (hunique z).1 ⟨hz, hdigits⟩
  exact ⟨hz, (hnumbers z).1 hz, hlen, hrest, hdigits, ⟨_, hnumber.symm, hrun⟩, (hbytes bs hlen).2⟩

end Sign

end WireCodec
