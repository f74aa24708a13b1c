import WireCodec.Proofs.Utf8

/-!
# Primitives both ways

Every primitive is read back from its bytes, and from no other bytes: truth values
and presence tags have one byte each, a character is read byte by byte for as long
as its bytes may still become one, and a text is read only where it is spelled as
it would be written.
-/
namespace WireCodec

open Cursor

namespace Cursor

variable {α : Type}

theorem Takes.get_bind {f : Cursor → Reading α} {bs : Bytes} {a : α} (h : ∀ c, Takes (f c) bs a) :
    Takes (do f (← get)) bs a := by
  intro c t hc
  rw [bind_eq_ok]
  exact ⟨c, c, rfl, h c c t hc⟩

theorem Yields.get_bind {f : Cursor → Reading α} {P : α → Bytes → Prop}
    (h : ∀ c, Yields (f c) P) : Yields (do f (← get)) P := by
  intro c a c' hm
  obtain ⟨_, _, hg, hf⟩ := bind_eq_ok.1 hm
  obtain ⟨rfl, rfl⟩ := get_eq_ok.1 hg
  exact h c c a c' hf

end Cursor

namespace Scalar

/-- A truth value is one byte, and false is 0 and true is 1. -/
theorem takes_readBool (b : Bool) : Takes readBool [if b then 1 else 0] b := by
  apply (takes_byte _).bind_nil
  cases b <;> exact Takes.pure _

theorem yields_readBool : Yields readBool fun b bs => bs = [if b then 1 else 0] := by
  apply yields_byte.bind
  rintro b _ rfl
  split
  · rename_i hb
    exact Yields.pure (by rw [hb]; rfl)
  · split
    · rename_i hb
      exact Yields.pure (by rw [hb]; rfl)
    · exact Yields.throw _

/-- What is left of a character after the bytes already seen is read to its end: until the last byte
is there, the bytes are the front of a character and not yet a fault. -/
theorem takes_readCharFrom {c : Char} {start n : Nat} {seen bs : Bytes}
    (h : seen ++ bs = Utf8.encodeChar c) (hbs : bs ≠ []) (hn : bs.length ≤ n) :
    Takes (readCharFrom start n seen) bs c := by
  induction n generalizing seen bs with
  | zero => exact absurd (List.eq_nil_of_length_eq_zero (Nat.le_zero.1 hn)) hbs
  | succ n ih =>
    obtain ⟨b, bs, rfl⟩ := List.exists_cons_of_ne_nil hbs
    rw [List.append_cons] at h
    rw [readCharFrom]
    refine (takes_byte b).bind (?_ : Takes _ bs c)
    by_cases hb : bs = []
    · subst hb
      rw [List.append_nil] at h
      have hc : Utf8.chars (seen ++ [b]) = .ok [c] := by
        rw [Utf8.chars_eq_ok, h, List.flatMap_singleton]
      simp only [hc]
      exact Takes.pure c
    · have he := Utf8.chars_of_prefix h (by simp) hb
      simp only [he]
      rw [if_neg (by simp)]
      exact ih h hb (Nat.le_of_succ_le_succ hn)

/-- A character is only ever made of the bytes already seen and those that were read. -/
theorem yields_readCharFrom (start n : Nat) (seen : Bytes) :
    Yields (readCharFrom start n seen) fun c bs => seen ++ bs = Utf8.encodeChar c := by
  induction n generalizing seen with
  | zero => exact Yields.throw _
  | succ n ih =>
    rw [readCharFrom]
    apply yields_byte.bind
    rintro b _ rfl
    dsimp only
    split
    · rename_i c hc
      rw [Utf8.chars_eq_ok, List.flatMap_singleton] at hc
      exact Yields.pure hc
    · exact Yields.throw _
    · split
      · exact Yields.throw _
      · apply (ih (seen ++ [b])).mono
        intro c bs h
        rw [← h, List.append_assoc]

theorem takes_readChar (c : Char) : Takes readChar (String.utf8EncodeChar c) c := by
  rw [← Utf8.encodeChar_eq]
  exact Takes.get_bind fun _ => takes_readCharFrom (List.nil_append _) (Utf8.encodeChar_ne_nil c)
    (Utf8.length_encodeChar_le c)

theorem yields_readChar : Yields readChar fun c bs => bs = String.utf8EncodeChar c :=
  Yields.get_bind fun _ => (yields_readCharFrom _ _ _).mono fun c _ h =>
    h.trans (Utf8.encodeChar_eq c)

variable (n : FormatName)

theorem takes_readBlob {bs : Bytes} (h : bs.length ≤ n.format.maxLength) :
    Takes (readBlob n.format) (n.lengthBytes bs.length ++ bs) bs :=
  (n.takes_readLength h).bind (takes_take bs)

/-- The bytes are those after the length, and the length is theirs. -/
theorem yields_readBlob : Yields (readBlob n.format) fun bs cs =>
    bs.length ≤ n.format.maxLength ∧ cs = n.lengthBytes bs.length ++ bs := by
  apply n.yields_readLength.bind
  rintro k _ ⟨hk, rfl⟩
  apply (yields_take k).mono
  rintro bs _ ⟨rfl, rfl⟩
  exact ⟨hk, rfl⟩

/-- The bytes of a text decode to it, so it is read back where its length may be written. -/
theorem takes_readText {s : String} (h : (Utf8.encode s).length ≤ n.format.maxLength) :
    Takes (readText n.format)
      (n.lengthBytes s.toByteArray.data.toList.length ++ s.toByteArray.data.toList) s := by
  rw [← Utf8.encode_eq]
  refine (n.takes_readLength h).bind (Takes.get_bind fun c => ?_)
  have hd : Utf8.decode (Utf8.encode s) = .ok s := Utf8.decode_eq_ok.2 rfl
  exact (takes_take (Utf8.encode s)).bind_nil (by rw [hd]; exact Takes.pure s)

/-- A text comes only from the bytes that spell it: decoding accepts nothing that encoding would not
write. -/
theorem yields_readText : Yields (readText n.format) fun s bs =>
    (Utf8.encode s).length ≤ n.format.maxLength ∧
      bs = n.lengthBytes s.toByteArray.data.toList.length ++ s.toByteArray.data.toList := by
  simp only [← Utf8.encode_eq]
  apply n.yields_readLength.bind
  rintro k _ ⟨hk, rfl⟩
  refine Yields.get_bind fun c => (yields_take k).bind ?_
  rintro _ bs ⟨rfl, rfl⟩
  split
  · rename_i s hs
    rw [Utf8.decode_eq_ok] at hs
    subst hs
    exact Yields.pure ⟨hk, by rw [List.append_nil]⟩
  · exact Yields.throw _

/-- A scalar is read back from its bytes, whatever comes after them. -/
theorem takes_read {s : Scalar} {v : s.Val} (h : s.Short n.format.maxLength v) :
    Takes (s.read n.format) (s.wire n v) v := by
  cases s with
  | unit => exact Takes.pure v
  | bool => exact takes_readBool v
  | uint w => exact takes_readNumber v
  | int w => exact takes_readNumber v
  | float p => exact takes_readNumber v
  | char => exact takes_readChar v
  | text => exact takes_readText n h
  | blob => exact takes_readBlob n h

/-- A scalar that was read is short enough to be written, and was read from the bytes that would be
written. -/
theorem yields_read (s : Scalar) : Yields (s.read n.format) fun v bs =>
    s.Short n.format.maxLength v ∧ bs = s.wire n v := by
  cases s with
  | unit => exact Yields.pure ⟨trivial, rfl⟩
  | bool => exact yields_readBool.mono fun _ _ h => ⟨trivial, h⟩
  | uint w => exact (yields_readNumber w).mono fun _ _ h => ⟨trivial, h⟩
  | int w => exact (yields_readNumber w).mono fun _ _ h => ⟨trivial, h⟩
  | float p => exact (yields_readNumber p.width).mono fun _ _ h => ⟨trivial, h⟩
  | char => exact yields_readChar.mono fun _ _ h => ⟨trivial, h⟩
  | text => exact yields_readText n
  | blob => exact yields_readBlob n

end Scalar

namespace Primitive

variable (n : FormatName)

/-- A presence tag is one byte, and absent is 0 and present is 1. -/
theorem takes_readPresence (b : Bool) : Takes readPresence [if b then 1 else 0] b := by
  apply (takes_byte _).bind_nil
  cases b <;> exact Takes.pure _

theorem yields_readPresence : Yields readPresence fun b bs => bs = [if b then 1 else 0] := by
  apply yields_byte.bind
  rintro b _ rfl
  by_cases h₀ : b = 0
  · subst h₀
    exact Yields.pure rfl
  by_cases h₁ : b = 1
  · subst h₁
    exact Yields.pure rfl
  simp only [Presence.ofByte]
  rw [if_neg h₀, if_neg h₁]
  exact Yields.throw _

/-- A primitive is read back from its bytes, whatever comes after them. -/
theorem takes_read {p : Primitive} {v : p.Val} (h : p.Short n.format.maxLength v) :
    Takes (p.read n.format) (p.wire n v) v := by
  cases p with
  | scalar s => exact Scalar.takes_read n h
  | presence => exact takes_readPresence v
  | length => exact n.takes_readLength h
  | variantIndex => exact n.takes_decodeVariantIndex v

/-- No two spellings of a primitive are accepted: what was read is what writing it would give. -/
theorem yields_read (p : Primitive) : Yields (p.read n.format) fun v bs =>
    p.Short n.format.maxLength v ∧ bs = p.wire n v := by
  cases p with
  | scalar s => exact Scalar.yields_read n s
  | presence => exact yields_readPresence.mono fun _ _ h => ⟨trivial, h⟩
  | length => exact n.yields_readLength
  | variantIndex => exact n.yields_decodeVariantIndex.mono fun _ _ h => ⟨trivial, h⟩

end Primitive

end WireCodec
