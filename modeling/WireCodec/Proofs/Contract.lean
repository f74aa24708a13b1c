import WireCodec.Encoder
import WireCodec.Proofs.Reading

/-!
# The contract of a format

A format writes a length if it is within the format's limit and refuses it otherwise, and it writes
every variant index. What it has written it reads back in front of anything, and it reads nothing
else: the two sides of a format cut off the lengths at the same place, though one looks at a number
and the other at bytes, so a decoder that holds a length against the limit once more finds nothing.
-/
namespace WireCodec

open Cursor (Takes Yields)

/-- What is written is read back wherever it stands, and whatever is read is what would be written
for the answer. -/
structure TwoWay {α : Type} (write : α → Except Error Bytes) (read : Reading α) : Prop where
  takes : ∀ a bs, write a = .ok bs → Takes read bs a
  yields : Yields read fun a bs => write a = .ok bs

/-- A limit that the format's own reading keeps to is not checked in vain. -/
theorem Format.readLength_eq {F : Format}
    (h : ∀ c k c', F.decodeLength c = .ok k c' → k ≤ F.maxLength) : F.readLength = F.decodeLength := by
  funext c
  cases hr : F.decodeLength c with
  | ok k c' =>
    rw [readLength, bind_of_ok hr, if_pos (h c k c' hr)]
    rfl
  | error x c' => exact bind_of_error hr

namespace FormatName

variable (n : FormatName)

theorem twoWay_length : TwoWay n.format.encodeLength n.format.decodeLength where
  takes k bs h := by
    obtain ⟨hk, rfl⟩ := encodeLength_eq_ok.1 h
    exact n.takes_decodeLength hk
  yields := n.yields_decodeLength.mono fun _ _ => encodeLength_eq_ok.2

theorem twoWay_variantIndex :
    TwoWay n.format.encodeVariantIndex n.format.decodeVariantIndex where
  takes i bs h := by
    rw [encodeVariantIndex_eq] at h
    cases h
    exact n.takes_decodeVariantIndex i
  yields := n.yields_decodeVariantIndex.mono fun i bs hbs => by rw [encodeVariantIndex_eq, hbs]

theorem le_of_decodeLength {c c' : Cursor} {k : Nat} (h : n.format.decodeLength c = .ok k c') :
    k ≤ n.format.maxLength := by
  obtain ⟨bs, t, -, -, hk, -⟩ := n.yields_decodeLength c k c' h
  exact hk

theorem encodeLength_of_lt {k : Nat} (h : n.format.maxLength < k) :
    n.format.encodeLength k = .error (.lengthOutOfRange k) := by
  cases hw : n.format.encodeLength k with
  | ok bs => exact absurd (encodeLength_eq_ok.1 hw).1 (Nat.not_le_of_lt h)
  | error x => rw [encodeLength_eq_error hw]

/-- Lengths within the limit are written and all others refused, variant indexes are always written,
behind whatever the buffer holds. Both are read back exactly, and nothing else is read. -/
theorem hooks_two_way :
    (∀ (k : Nat) (e : Encoder),
      (k ≤ n.format.maxLength → ∃ bs, n.format.encodeLength k = .ok bs ∧
        Encoder.write n.format .length k e = .ok () ⟨e.buffer ++ bs, e.depth⟩) ∧
      (n.format.maxLength < k →
        Encoder.write n.format .length k e = .error (.lengthOutOfRange k) e)) ∧
    TwoWay n.format.encodeLength n.format.decodeLength ∧
    (∀ c k c', n.format.decodeLength c = .ok k c' → k ≤ n.format.maxLength) ∧
    n.format.readLength = n.format.decodeLength ∧
    (∀ (i : UInt32) (e : Encoder), ∃ bs, n.format.encodeVariantIndex i = .ok bs ∧
      Encoder.write n.format .variantIndex i e = .ok () ⟨e.buffer ++ bs, e.depth⟩) ∧
    TwoWay n.format.encodeVariantIndex n.format.decodeVariantIndex := by
  have hle : ∀ c k c', n.format.decodeLength c = .ok k c' → k ≤ n.format.maxLength :=
    fun _ _ _ => n.le_of_decodeLength
  refine ⟨fun k e => ⟨fun hk => ?_, fun hk => ?_⟩, n.twoWay_length, hle, Format.readLength_eq hle,
    fun i e => ?_, n.twoWay_variantIndex⟩
  · have hw := encodeLength_eq_ok.2 ⟨hk, rfl⟩
    refine ⟨_, hw, ?_⟩
    simp only [Encoder.write, Primitive.write, hw]
    rfl
  · simp only [Encoder.write, Primitive.write, n.encodeLength_of_lt hk]
    rfl
  · have hw := n.encodeVariantIndex_eq i
    refine ⟨_, hw, ?_⟩
    simp only [Encoder.write, Primitive.write, hw]
    rfl

/-- The greatest length of the canonical format, the one behind it, and a length of two bytes. -/
theorem hooks_two_way_limits :
    (∃ bs, canonical.format.encodeLength 0x7FFFFFFF = .ok bs ∧
      Encoder.write canonical.format .length (0x7FFFFFFF : Nat) ⟨[9], .full 1⟩ =
        .ok () ⟨[9] ++ bs, .full 1⟩) ∧
    Encoder.write canonical.format .length (0x80000000 : Nat) ⟨[9], .full 1⟩ =
      .error (.lengthOutOfRange 0x80000000) ⟨[9], .full 1⟩ ∧
    canonical.format.decodeLength ⟨[9, 172, 2, 5], 1⟩ = .ok 300 ⟨[9, 172, 2, 5], 3⟩ ∧
    300 ≤ canonical.format.maxLength := by
  obtain ⟨hwrite, hlength, hle, -⟩ := hooks_two_way canonical
  have hread : canonical.format.decodeLength ⟨[9, 172, 2, 5], 1⟩ = .ok 300 ⟨[9, 172, 2, 5], 3⟩ :=
    hlength.takes 300 [172, 2] rfl ⟨[9, 172, 2, 5], 1⟩ [5] rfl
  exact ⟨(hwrite 0x7FFFFFFF _).1 (by decide), (hwrite 0x80000000 _).2 (by decide), hread,
    hle _ _ _ hread⟩

end FormatName

end WireCodec
