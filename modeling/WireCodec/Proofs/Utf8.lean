import WireCodec.Proofs.Reading

/-!
# UTF-8 both ways

A scalar's bytes are a lead byte and the continuation bytes it announces. The lead
byte also bounds the first of them, and with these bounds the bytes and the scalar
determine each other: what is read is the shortest form of the scalar that comes
out, and a scalar that is cut short is neither accepted nor refused.
-/
namespace WireCodec

namespace Utf8

/-- Continuation bytes, the first of them within `low` and `high`. -/
def Continues : (low high : Nat) → Bytes → Prop
  | _, _, [] => True
  | low, high, b :: bs => (low ≤ b.toNat ∧ b.toNat ≤ high) ∧ Continues 0x80 0xBF bs

/-- Six more bits from each of the bytes. -/
def gather (value : Nat) (bs : Bytes) : Nat := bs.foldl (fun v b => v * 64 + (b.toNat - 0x80)) value

@[simp] theorem continues_nil (low high : Nat) : Continues low high [] := trivial
@[simp] theorem continues_cons {low high : Nat} {b : UInt8} {bs : Bytes} :
    Continues low high (b :: bs) ↔
      (low ≤ b.toNat ∧ b.toNat ≤ high) ∧ Continues 0x80 0xBF bs := Iff.rfl
@[simp] theorem gather_nil (value : Nat) : gather value [] = value := rfl
@[simp] theorem gather_cons (value : Nat) (b : UInt8) (bs : Bytes) :
    gather value (b :: bs) = gather (value * 64 + (b.toNat - 0x80)) bs := by
  simp only [gather, List.foldl_cons]

/-- Bytes within bounds are gathered into the scalar, whatever follows them. -/
theorem continued_append {bs : Bytes} {low high : Nat} (h : Continues low high bs) (value seen : Nat)
    (t : Bytes) : continued value seen bs.length low high (bs ++ t) =
      .scalar (Char.ofNat (gather value bs)) (seen + bs.length) := by
  induction bs generalizing value seen low high with
  | nil => rfl
  | cons b bs ih =>
    rw [continues_cons] at h
    rw [List.length_cons, List.cons_append, continued, if_pos h.1, ih h.2, gather_cons,
      Nat.add_assoc, Nat.add_comm 1]

/-- With some of these bytes missing, nothing is decided yet. -/
theorem continued_short {bs : Bytes} {low high : Nat} {c : UInt8} {cs : Bytes}
    (h : Continues low high (bs ++ c :: cs)) (value seen : Nat) :
    continued value seen (bs ++ c :: cs).length low high bs = .incomplete := by
  induction bs generalizing value seen low high with
  | nil => rfl
  | cons b bs ih =>
    rw [List.cons_append, continues_cons] at h
    rw [List.cons_append, List.length_cons, continued, if_pos h.1, ih h.2]

theorem continued_eq_scalar {bs : Bytes} {value seen tail low high k : Nat} {c : Char}
    (h : continued value seen tail low high bs = .scalar c k) :
    ∃ cs t, bs = cs ++ t ∧ cs.length = tail ∧ Continues low high cs ∧
      c = Char.ofNat (gather value cs) ∧ k = seen + tail := by
  induction tail generalizing bs value seen low high with
  | zero =>
    cases h
    exact ⟨[], bs, rfl, rfl, trivial, rfl, rfl⟩
  | succ tail ih =>
    cases bs with
    | nil => cases h
    | cons b bs =>
      simp only [continued] at h
      split at h
      · rename_i hb
        obtain ⟨cs, t, rfl, rfl, hcs, rfl, rfl⟩ := ih h
        refine ⟨b :: cs, t, rfl, rfl, continues_cons.2 ⟨hb, hcs⟩, by rw [gather_cons], ?_⟩
        omega
      · cases h

theorem toNat_byte {k : Nat} (h : k < 256) : (UInt8.ofNat k).toNat = k := by
  rw [UInt8.toNat_ofNat']
  exact Nat.mod_eq_of_lt h

/-- A scalar is written as a lead byte and what that announces. -/
theorem encodeChar_lead (c : Char) : ∃ b bs l, encodeChar c = b :: bs ∧ lead? b = some l ∧
    bs.length = l.tail ∧ Continues l.low l.high bs ∧ gather l.value bs = c.toNat := by
  have hc := toNat_lt c
  have hs : c.toNat < 0xD800 ∨ 0xDFFF < c.toNat := by
    rcases c.valid with h | h
    · exact .inl h
    · exact .inr h.1
  simp only [encodeChar]
  generalize c.toNat = n at hc hs
  by_cases h₁ : n < 0x80
  · have hb := toNat_byte (by omega : n < 256)
    refine ⟨_, _, ⟨n, 0, 0x80, 0xBF⟩, if_pos h₁, ?_, rfl, trivial, rfl⟩
    simp only [lead?, hb]
    rw [if_pos h₁]
  rw [if_neg h₁]
  have hz := toNat_byte (by omega : 0x80 + n % 64 < 256)
  by_cases h₂ : n < 0x800
  · have hb := toNat_byte (by omega : 0xC0 + n / 64 < 256)
    refine ⟨_, _, ⟨n / 64, 1, 0x80, 0xBF⟩, if_pos h₂, ?_, rfl, ?_, ?_⟩
    · simp only [lead?, hb]
      rw [if_neg (by omega), if_neg (by omega), if_pos (by omega), Nat.add_sub_cancel_left]
    · simp only [continues_cons, continues_nil, and_true, hz]
      omega
    · simp only [gather_cons, gather_nil, hz]
      omega
  rw [if_neg h₂]
  have hy := toNat_byte (by omega : 0x80 + n / 64 % 64 < 256)
  by_cases h₃ : n < 0x10000
  · have hb := toNat_byte (by omega : 0xE0 + n / 4096 < 256)
    refine ⟨_, _, ⟨n / 4096, 2, if 0xE0 + n / 4096 = 0xE0 then 0xA0 else 0x80,
      if 0xE0 + n / 4096 = 0xED then 0x9F else 0xBF⟩, if_pos h₃, ?_, rfl, ?_, ?_⟩
    · simp only [lead?, hb]
      rw [if_neg (by omega), if_neg (by omega), if_neg (by omega), if_pos (by omega),
        Nat.add_sub_cancel_left]
    · simp only [continues_cons, continues_nil, and_true, hy, hz]
      split <;> split <;> omega
    · simp only [gather_cons, gather_nil, hy, hz]
      omega
  · have hb := toNat_byte (by omega : 0xF0 + n / 262144 < 256)
    have hx := toNat_byte (by omega : 0x80 + n / 4096 % 64 < 256)
    refine ⟨_, _, ⟨n / 262144, 3, if 0xF0 + n / 262144 = 0xF0 then 0x90 else 0x80,
      if 0xF0 + n / 262144 = 0xF4 then 0x8F else 0xBF⟩, if_neg h₃, ?_, rfl, ?_, ?_⟩
    · simp only [lead?, hb]
      rw [if_neg (by omega), if_neg (by omega), if_neg (by omega), if_neg (by omega),
        if_pos (by omega), Nat.add_sub_cancel_left]
    · simp only [continues_cons, continues_nil, and_true, hx, hy, hz]
      split <;> split <;> omega
    · simp only [gather_cons, gather_nil, hx, hy, hz]
      omega

theorem toNat_ofNat {k : Nat} (h : k < 0xD800 ∨ 0xDFFF < k ∧ k < 0x110000) :
    (Char.ofNat k).toNat = k := by
  have hk : k.isValidChar := h
  rw [Char.ofNat, dif_pos hk]
  exact UInt32.toNat_ofNatLT

theorem byte_eq {b : UInt8} {k : Nat} (h : k = b.toNat) : UInt8.ofNat k = b := by
  rw [h, UInt8.ofNat_toNat]

theorem encodeChar_two {b x : UInt8} (hb : 0xC2 ≤ b.toNat ∧ b.toNat < 0xE0)
    (hx : 0x80 ≤ x.toNat ∧ x.toNat ≤ 0xBF) :
    encodeChar (Char.ofNat ((b.toNat - 0xC0) * 64 + (x.toNat - 0x80))) = [b, x] := by
  generalize hk : (b.toNat - 0xC0) * 64 + (x.toNat - 0x80) = k
  rw [encodeChar, toNat_ofNat (by omega), if_neg (by omega), if_pos (by omega),
    byte_eq (b := b) (by omega), byte_eq (b := x) (by omega)]

/-- The two lead bytes with a bound of their own keep off over-long forms and surrogates. -/
theorem encodeChar_three {b x y : UInt8} (hb : 0xE0 ≤ b.toNat ∧ b.toNat < 0xF0)
    (hx : 0x80 ≤ x.toNat ∧ x.toNat ≤ 0xBF) (hlow : b.toNat = 0xE0 → 0xA0 ≤ x.toNat)
    (hhigh : b.toNat = 0xED → x.toNat ≤ 0x9F) (hy : 0x80 ≤ y.toNat ∧ y.toNat ≤ 0xBF) :
    encodeChar (Char.ofNat (((b.toNat - 0xE0) * 64 + (x.toNat - 0x80)) * 64 + (y.toNat - 0x80))) =
      [b, x, y] := by
  generalize hk : ((b.toNat - 0xE0) * 64 + (x.toNat - 0x80)) * 64 + (y.toNat - 0x80) = k
  rw [encodeChar, toNat_ofNat (by omega), if_neg (by omega), if_neg (by omega), if_pos (by omega),
    byte_eq (b := b) (by omega), byte_eq (b := x) (by omega), byte_eq (b := y) (by omega)]

theorem encodeChar_four {b x y z : UInt8} (hb : 0xF0 ≤ b.toNat ∧ b.toNat < 0xF5)
    (hx : 0x80 ≤ x.toNat ∧ x.toNat ≤ 0xBF) (hlow : b.toNat = 0xF0 → 0x90 ≤ x.toNat)
    (hhigh : b.toNat = 0xF4 → x.toNat ≤ 0x8F) (hy : 0x80 ≤ y.toNat ∧ y.toNat ≤ 0xBF)
    (hz : 0x80 ≤ z.toNat ∧ z.toNat ≤ 0xBF) :
    encodeChar (Char.ofNat ((((b.toNat - 0xF0) * 64 + (x.toNat - 0x80)) * 64 + (y.toNat - 0x80)) * 64 +
      (z.toNat - 0x80))) = [b, x, y, z] := by
  generalize hk : (((b.toNat - 0xF0) * 64 + (x.toNat - 0x80)) * 64 + (y.toNat - 0x80)) * 64 +
    (z.toNat - 0x80) = k
  rw [encodeChar, toNat_ofNat (by omega), if_neg (by omega), if_neg (by omega), if_neg (by omega),
    byte_eq (b := b) (by omega), byte_eq (b := x) (by omega), byte_eq (b := y) (by omega),
    byte_eq (b := z) (by omega)]

/-- What a lead byte and the bytes it announces come to is written as just these bytes. -/
theorem encodeChar_gather {b : UInt8} {bs : Bytes} {l : Lead} (hl : lead? b = some l)
    (hn : bs.length = l.tail) (hc : Continues l.low l.high bs) :
    encodeChar (Char.ofNat (gather l.value bs)) = b :: bs := by
  obtain ⟨value, tail, low, high⟩ := l
  simp only [lead?] at hl
  by_cases h₁ : b.toNat < 0x80
  · rw [if_pos h₁, Option.some.injEq, Lead.mk.injEq] at hl
    obtain ⟨rfl, rfl, -, -⟩ := hl
    obtain rfl := List.eq_nil_of_length_eq_zero hn
    change encodeChar (Char.ofNat b.toNat) = [b]
    rw [encodeChar, toNat_ofNat (by omega), if_pos h₁, UInt8.ofNat_toNat]
  rw [if_neg h₁] at hl
  by_cases h₂ : b.toNat < 0xC2
  · rw [if_pos h₂] at hl
    cases hl
  rw [if_neg h₂] at hl
  by_cases h₃ : b.toNat < 0xE0
  · rw [if_pos h₃, Option.some.injEq, Lead.mk.injEq] at hl
    obtain ⟨rfl, rfl, rfl, rfl⟩ := hl
    obtain ⟨x, rfl⟩ := List.length_eq_one_iff.1 hn
    exact encodeChar_two ⟨Nat.le_of_not_lt h₂, h₃⟩ hc.1
  rw [if_neg h₃] at hl
  by_cases h₄ : b.toNat < 0xF0
  · rw [if_pos h₄, Option.some.injEq, Lead.mk.injEq] at hl
    obtain ⟨rfl, rfl, hlow, hhigh⟩ := hl
    obtain ⟨x, y, rfl⟩ := List.length_eq_two.1 hn
    obtain ⟨hx, hy, -⟩ := hc
    simp only at hx
    apply encodeChar_three ⟨Nat.le_of_not_lt h₃, h₄⟩ ?_ ?_ ?_ hy
    · split at hlow <;> split at hhigh <;> omega
    · split at hlow <;> omega
    · split at hhigh <;> omega
  rw [if_neg h₄] at hl
  by_cases h₅ : b.toNat < 0xF5
  · rw [if_pos h₅, Option.some.injEq, Lead.mk.injEq] at hl
    obtain ⟨rfl, rfl, hlow, hhigh⟩ := hl
    obtain ⟨x, y, z, rfl⟩ := List.length_eq_three.1 hn
    obtain ⟨hx, hy, hz, -⟩ := hc
    simp only at hx
    apply encodeChar_four ⟨Nat.le_of_not_lt h₄, h₅⟩ ?_ ?_ ?_ hy hz
    · split at hlow <;> split at hhigh <;> omega
    · split at hlow <;> omega
    · split at hhigh <;> omega
  · rw [if_neg h₅] at hl
    cases hl

theorem length_encodeChar_le (c : Char) : (encodeChar c).length ≤ 4 := by
  simp only [encodeChar]
  repeat' split
  all_goals simp

/-- A scalar is recognised by its bytes, whatever follows them. -/
theorem front_encodeChar (c : Char) (t : Bytes) :
    front (encodeChar c ++ t) = .scalar c (encodeChar c).length := by
  obtain ⟨b, bs, l, he, hl, hn, hc, hg⟩ := encodeChar_lead c
  rw [he, List.cons_append, front, hl]
  simp only
  rw [← hn, continued_append hc, hg, Char.ofNat_toNat, List.length_cons, Nat.add_comm]

/-- A scalar that is cut short may still become one. -/
theorem front_of_prefix {c : Char} {bs cs : Bytes} (h : bs ++ cs = encodeChar c) (hcs : cs ≠ []) :
    front bs = .incomplete := by
  obtain ⟨b, ts, l, he, hl, hn, hc, -⟩ := encodeChar_lead c
  rw [he] at h
  cases bs with
  | nil => rfl
  | cons b' bs =>
    rw [List.cons_append, List.cons.injEq] at h
    obtain ⟨rfl, rfl⟩ := h
    obtain ⟨x, cs, rfl⟩ := List.exists_cons_of_ne_nil hcs
    rw [front, hl]
    simp only
    rw [← hn, continued_short hc]

/-- What is taken for a scalar is its shortest form. -/
theorem front_eq_scalar {bs : Bytes} {c : Char} {k : Nat} (h : front bs = .scalar c k) :
    k = (encodeChar c).length ∧ ∃ t, bs = encodeChar c ++ t := by
  cases bs with
  | nil => cases h
  | cons b bs =>
    rw [front] at h
    cases hl : lead? b with
    | none => rw [hl] at h; cases h
    | some l =>
      rw [hl] at h
      obtain ⟨cs, t, rfl, hn, hc, rfl, rfl⟩ := continued_eq_scalar h
      rw [encodeChar_gather hl hn hc, List.length_cons, hn]
      exact ⟨Nat.add_comm .., t, rfl⟩

theorem charsFrom_append (index : Nat) (c : Char) (t : Bytes) :
    charsFrom index 0 (encodeChar c ++ t) =
      (charsFrom (index + (encodeChar c).length) 0 t).map (c :: ·) := by
  have hf := front_encodeChar c t
  obtain ⟨b, bs, he⟩ := List.exists_cons_of_ne_nil (encodeChar_ne_nil c)
  rw [he, List.cons_append] at hf ⊢
  rw [charsFrom, hf]
  simp only
  rw [charsFrom_skip, List.length_cons, Nat.add_sub_cancel, List.drop_left]

/-- A text is read just where its scalars stand one after the other. -/
theorem charsFrom_eq_ok {index : Nat} {bs : Bytes} {cs : List Char} :
    charsFrom index 0 bs = .ok cs ↔ bs = cs.flatMap encodeChar := by
  constructor
  · intro h
    induction cs generalizing index bs with
    | nil =>
      cases bs with
      | nil => rfl
      | cons b bs =>
        rw [charsFrom] at h
        split at h
        · rename_i c k _
          cases hr : charsFrom (index + k) (k - 1) bs <;> rw [hr] at h <;> cases h
        · cases h
        · cases h
    | cons c cs ih =>
      cases hf : front bs with
      | scalar c' k =>
        obtain ⟨-, t, rfl⟩ := front_eq_scalar hf
        rw [charsFrom_append] at h
        cases hr : charsFrom (index + (encodeChar c').length) 0 t with
        | error e => rw [hr] at h; cases h
        | ok ds =>
          rw [hr] at h
          cases h
          rw [List.flatMap_cons, ← ih hr]
      | _ =>
        cases bs with
        | nil => cases h
        | cons b bs => rw [charsFrom, hf] at h; cases h
  · rintro rfl
    induction cs generalizing index with
    | nil => rfl
    | cons c cs ih =>
      rw [List.flatMap_cons, charsFrom_append, ih]
      rfl

theorem chars_eq_ok {bs : Bytes} {cs : List Char} :
    chars bs = .ok cs ↔ bs = cs.flatMap encodeChar := charsFrom_eq_ok

theorem chars_of_prefix {c : Char} {bs cs : Bytes} (h : bs ++ cs = encodeChar c) (hbs : bs ≠ [])
    (hcs : cs ≠ []) : chars bs = .error ⟨0, none⟩ := by
  have hf := front_of_prefix h hcs
  obtain ⟨b, bs, rfl⟩ := List.exists_cons_of_ne_nil hbs
  rw [chars, charsFrom, hf]

/-- A byte string is a text just where it is the encoding of that text. -/
theorem decode_eq_ok {bs : Bytes} {s : String} : decode bs = .ok s ↔ bs = encode s := by
  rw [decode, encode, ← chars_eq_ok]
  cases chars bs with
  | error e => simp [Except.map]
  | ok cs =>
    simp only [Except.map, Except.ok.injEq]
    constructor
    · rintro rfl
      rw [String.toList_ofList]
    · rintro rfl
      rw [String.ofList_toList]

end Utf8

end WireCodec
