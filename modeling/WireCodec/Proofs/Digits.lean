import Mathlib
import WireCodec.Number

/-!
# Digits in base 256

The bytes of a number are its digits, lowest first, so both directions are division
by powers of 256. A pattern of 128 bits goes through two words; the digits of the
low word followed by those of the high word are the digits of the whole, hence no
width is an exception.
-/
namespace WireCodec

namespace Bytes

/-- Only the digits that are kept count. -/
theorem toNat_ofNat (n v : Nat) : toNat (ofNat n v) = v % 256 ^ n := by
  induction n generalizing v with
  | zero => simp [Nat.mod_one]
  | succ n ih => simp [ih, Nat.pow_succ', Nat.mod_mul]

theorem toNat_lt (bs : Bytes) : toNat bs < 256 ^ bs.length := by
  induction bs with
  | nil => simp
  | cons b bs ih =>
    have hb := b.toNat_lt
    simp only [toNat_cons, List.length_cons, Nat.pow_succ]
    omega

/-- What comes later weighs more. -/
theorem toNat_append (bs cs : Bytes) :
    toNat (bs ++ cs) = toNat bs + 256 ^ bs.length * toNat cs := by
  induction bs with
  | nil => simp
  | cons b bs ih =>
    simp only [List.cons_append, toNat_cons, ih, List.length_cons, Nat.pow_succ']
    rw [Nat.mul_add, Nat.mul_assoc]
    omega

/-- The digits of a number in two runs, the higher ones of what the lower ones leave. -/
theorem ofNat_add (m k v : Nat) : ofNat (m + k) v = ofNat m v ++ ofNat k (v / 256 ^ m) := by
  induction m generalizing v with
  | zero => simp
  | succ m ih =>
    rw [Nat.succ_add, ofNat_succ, ih, ofNat_succ, List.cons_append, Nat.div_div_eq_div_mul,
      Nat.pow_succ']

/-- Digits that are dropped make no difference. -/
theorem ofNat_mod (m v : Nat) : ofNat m (v % 256 ^ m) = ofNat m v := by
  have h := ofNat_toNat (ofNat m v)
  rwa [length_ofNat, toNat_ofNat] at h

/-- The digit in each place. -/
theorem toNat_getElem_ofNat {n v i : Nat} (h : i < (ofNat n v).length) :
    (ofNat n v)[i].toNat = v / 256 ^ i % 256 := by
  induction n generalizing v i with
  | zero => exact absurd h (Nat.not_lt_zero i)
  | succ n ih =>
    cases i with
    | zero => simp
    | succ i =>
      have htail := ih (v := v / 256) (Nat.lt_of_succ_lt_succ h)
      rw [Nat.div_div_eq_div_mul, ← Nat.pow_succ'] at htail
      exact htail

/-- Eight bytes fill a word. -/
theorem toNat_word {bs : Bytes} (h : bs.length = 8) : (UInt64.ofNat (toNat bs)).toNat = toNat bs := by
  have hlt := toNat_lt bs
  rw [h] at hlt
  exact UInt64.toNat_ofNat_of_lt' hlt

theorem ofNat_word {bs : Bytes} (h : bs.length = 8) :
    ofNat 8 (UInt64.ofNat (toNat bs)).toNat = bs := by
  rw [toNat_word h, ← h, ofNat_toNat]

theorem word_ofNat (v : UInt64) : UInt64.ofNat (toNat (ofNat 8 v.toNat)) = v := by
  have hlt : v.toNat < 256 ^ 8 := v.toNat_lt
  rw [toNat_ofNat, Nat.mod_eq_of_lt hlt, UInt64.ofNat_toNat]

end Bytes

namespace WordPair

theorem eq_of_toNat {p q : WordPair} (hlow : p.low.toNat = q.low.toNat)
    (hhigh : p.high.toNat = q.high.toNat) : p = q := by
  obtain ⟨low, high⟩ := p
  rw [mk.injEq]
  exact ⟨UInt64.toNat_inj.1 hlow, UInt64.toNat_inj.1 hhigh⟩

theorem toNat_low_ofBits (x : BitVec 128) : (ofBits x).low.toNat = x.toNat % 2 ^ 64 :=
  UInt64.toNat_ofNat'

theorem toNat_high_ofBits (x : BitVec 128) : (ofBits x).high.toNat = x.toNat / 2 ^ 64 % 2 ^ 64 :=
  UInt64.toNat_ofNat'

theorem toNat_toBits (p : WordPair) : p.toBits.toNat = p.low.toNat + 2 ^ 64 * p.high.toNat := by
  have hl := p.low.toNat_lt
  have hh := p.high.toNat_lt
  rw [toBits, BitVec.toNat_ofNat, UInt64.size]
  omega

/-- A pattern and its two words determine each other. -/
@[simp] theorem toBits_ofBits (x : BitVec 128) : (ofBits x).toBits = x := by
  have h := x.isLt
  apply BitVec.eq_of_toNat_eq
  rw [toNat_toBits, toNat_low_ofBits, toNat_high_ofBits]
  omega

@[simp] theorem ofBits_toBits (p : WordPair) : ofBits p.toBits = p := by
  have hl := p.low.toNat_lt
  have hh := p.high.toNat_lt
  apply eq_of_toNat
  · rw [toNat_low_ofBits, toNat_toBits]
    omega
  · rw [toNat_high_ofBits, toNat_toBits]
    omega

@[simp] theorem ofBytes_toBytes (p : WordPair) : ofBytes p.toBytes = p := by
  have hlen : (Bytes.ofNat 8 p.low.toNat).length = 8 := Bytes.length_ofNat 8 _
  rw [ofBytes, toBytes, List.take_left' hlen, List.drop_left' hlen, Bytes.word_ofNat,
    Bytes.word_ofNat]

theorem length_halves {bs : Bytes} (h : bs.length = 16) :
    (bs.take 8).length = 8 ∧ (bs.drop 8).length = 8 := by simp [h]

theorem toBytes_ofBytes {bs : Bytes} (h : bs.length = 16) : (ofBytes bs).toBytes = bs := by
  obtain ⟨hlow, hhigh⟩ := length_halves h
  rw [toBytes, ofBytes, Bytes.ofNat_word hlow, Bytes.ofNat_word hhigh, List.take_append_drop]

/-- The words are cut out of the pattern, the high one after a shift. -/
theorem ofBits_eq_shift (x : BitVec 128) :
    ofBits x = ⟨⟨x.setWidth 64⟩, ⟨(x >>> 64).setWidth 64⟩⟩ := by
  have hlow := BitVec.toNat_setWidth 64 x
  have hhigh := BitVec.toNat_setWidth 64 (x >>> 64)
  rw [BitVec.toNat_ushiftRight, Nat.shiftRight_eq_div_pow] at hhigh
  apply eq_of_toNat
  · exact (toNat_low_ofBits x).trans hlow.symm
  · exact (toNat_high_ofBits x).trans hhigh.symm

/-- The words are put together by a shift and a disjunction of bits. -/
theorem toBits_eq_or (p : WordPair) :
    p.toBits = p.high.toBitVec.setWidth 128 <<< 64 ||| p.low.toBitVec.setWidth 128 := by
  have hl := p.low.toNat_lt
  have hh := p.high.toNat_lt
  have hlow : p.low.toNat % 2 ^ 128 = p.low.toNat := by omega
  have hhigh : p.high.toNat % 2 ^ 128 = p.high.toNat := by omega
  have hshift : p.high.toNat <<< 64 % 2 ^ 128 = p.high.toNat <<< 64 := by
    rw [Nat.shiftLeft_eq]
    omega
  apply BitVec.eq_of_toNat_eq
  rw [toNat_toBits]
  simp only [BitVec.toNat_or, BitVec.toNat_shiftLeft, BitVec.toNat_setWidth, UInt64.toNat_toBitVec,
    hlow, hhigh, hshift]
  -- the shifted word ends in zeros, so that no bit is in both
  rw [← Nat.shiftLeft_add_eq_or_of_lt hl, Nat.shiftLeft_eq]
  omega

end WordPair

namespace Width

theorem bits_pos (w : Width) : 0 < w.bits := by cases w <;> decide

theorem bytes_eq (w : Width) : w.bytes = w.bits / 8 := by cases w <;> rfl

theorem two_pow_bits (w : Width) : 2 ^ w.bits = 256 ^ w.bytes := by cases w <;> rfl

/-- Two words, low before high, are the sixteen digits of the whole number. -/
theorem encode_eq (w : Width) (x : BitVec w.bits) : w.encode x = Bytes.ofNat w.bytes x.toNat := by
  cases w with
  | w128 =>
    have hlow : (WordPair.ofBits x).low.toNat = x.toNat % 256 ^ 8 := WordPair.toNat_low_ofBits x
    have hhigh : (WordPair.ofBits x).high.toNat = x.toNat / 256 ^ 8 % 256 ^ 8 :=
      WordPair.toNat_high_ofBits x
    simp only [encode, WordPair.toBytes, bytes]
    rw [hlow, hhigh, Bytes.ofNat_mod, Bytes.ofNat_mod]
    exact (Bytes.ofNat_add 8 8 _).symm
  | _ => rfl

/-- A number is read from its digits, through two words if it has sixteen of them. -/
theorem toNat_decode {w : Width} {bs : Bytes} (h : bs.length = w.bytes) :
    (w.decode bs).toNat = Bytes.toNat bs := by
  have hlt := Bytes.toNat_lt bs
  rw [h, ← two_pow_bits] at hlt
  cases w with
  | w128 =>
    obtain ⟨hlow, hhigh⟩ := WordPair.length_halves h
    have hsplit := Bytes.toNat_append (bs.take 8) (bs.drop 8)
    rw [List.take_append_drop, hlow] at hsplit
    change (WordPair.ofBytes bs).toBits.toNat = _
    rw [WordPair.toNat_toBits, WordPair.ofBytes, Bytes.toNat_word hlow, Bytes.toNat_word hhigh, hsplit]
    rfl
  | _ => exact (BitVec.toNat_ofNat _ _).trans (Nat.mod_eq_of_lt hlt)

@[simp] theorem decode_encode (w : Width) (x : BitVec w.bits) : w.decode (w.encode x) = x := by
  apply BitVec.eq_of_toNat_eq
  rw [toNat_decode (length_encode w x), encode_eq, Bytes.toNat_ofNat, ← two_pow_bits]
  exact Nat.mod_eq_of_lt x.isLt

end Width

end WireCodec
