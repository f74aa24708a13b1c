import WireCodec.Format.Uleb128
import WireCodec.Proofs.Layout

/-!
# Reading what was written

A reader is measured against the bytes it takes. `Takes` says that it reads one
byte string and answers one value wherever those bytes stand; `Yields` says that
it accepts no byte string but those that belong to its answer. Both are stated
for every input and follow the readers through sequencing. Numbers in base 128
and base 256, and with them the lengths and variant indexes of both formats, have
exactly one byte string for a value.
-/
namespace WireCodec

namespace Cursor

variable {α β : Type}

/-- `m` takes `bs` off the input, whatever comes before and after, and answers `a`. -/
def Takes (m : Reading α) (bs : Bytes) (a : α) : Prop :=
  ∀ c t, c.rest = bs ++ t → m c = .ok a (c.advance bs.length)

/-- Where `m` succeeds, the bytes taken off the input belong to the answer. -/
def Yields (m : Reading α) (P : α → Bytes → Prop) : Prop :=
  ∀ c a c', m c = .ok a c' → ∃ bs t, c.rest = bs ++ t ∧ c' = c.advance bs.length ∧ P a bs

theorem advance_advance (c : Cursor) (m n : Nat) : (c.advance m).advance n = c.advance (m + n) := by
  simp only [advance, Nat.add_assoc]

theorem remaining_advance (c : Cursor) (n : Nat) : (c.advance n).remaining = c.remaining - n :=
  (Nat.sub_sub ..).symm

theorem rest_advance_append {c : Cursor} {bs t : Bytes} (h : c.rest = bs ++ t) :
    (c.advance bs.length).rest = t := by
  rw [rest_advance, h, List.drop_left]

theorem Takes.pure (a : α) : Takes (pure a) [] a := fun _ _ _ => rfl

/-- One step takes the front of the bytes, and the next one the rest of them. -/
theorem Takes.bind {m : Reading α} {f : α → Reading β} {bs cs : Bytes} {a : α} {b : β}
    (h : Takes m bs a) (h' : Takes (f a) cs b) : Takes (m >>= f) (bs ++ cs) b := by
  intro c t hc
  rw [List.append_assoc] at hc
  rw [bind_eq_ok]
  refine ⟨a, _, h c _ hc, ?_⟩
  rw [h' _ t (rest_advance_append hc), advance_advance, List.length_append]

/-- A second step that only looks at the first answer. -/
theorem Takes.bind_nil {m : Reading α} {f : α → Reading β} {bs : Bytes} {a : α} {b : β}
    (h : Takes m bs a) (h' : Takes (f a) [] b) : Takes (m >>= f) bs b := by
  have hb := h.bind h'
  rwa [List.append_nil] at hb

theorem takes_byte (b : UInt8) : Takes byte [b] b := by
  intro c t hc
  simp only [byte, hc]
  rfl

theorem takes_take (bs : Bytes) : Takes (take bs.length) bs bs := by
  intro c t hc
  have hr := c.length_rest
  rw [hc, List.length_append] at hr
  simp only [take, hc]
  rw [if_pos (by omega), List.take_left]

theorem Yields.mono {m : Reading α} {P Q : α → Bytes → Prop} (h : Yields m P)
    (hPQ : ∀ a bs, P a bs → Q a bs) : Yields m Q := by
  intro c a c' hm
  obtain ⟨bs, t, hr, hc, hp⟩ := h c a c' hm
  exact ⟨bs, t, hr, hc, hPQ a bs hp⟩

theorem Yields.pure {P : α → Bytes → Prop} {a : α} (h : P a []) : Yields (pure a) P := by
  intro c b c' hm
  obtain ⟨rfl, rfl⟩ := pure_eq_ok.1 hm
  exact ⟨[], c.rest, rfl, rfl, h⟩

theorem Yields.throw {P : α → Bytes → Prop} (e : Error) : Yields (throw e) P :=
  fun _ _ _ hm => absurd hm throw_ne_ok

/-- What both steps took belongs to the last answer, if it does in view of the first. -/
theorem Yields.bind {m : Reading α} {f : α → Reading β} {P : α → Bytes → Prop}
    {Q : β → Bytes → Prop} (h : Yields m P)
    (h' : ∀ a bs, P a bs → Yields (f a) fun b cs => Q b (bs ++ cs)) : Yields (m >>= f) Q := by
  intro c b c' hm
  obtain ⟨a, c₁, hm, hf⟩ := bind_eq_ok.1 hm
  obtain ⟨bs, t, hr, rfl, hp⟩ := h c a c₁ hm
  obtain ⟨cs, t', hr', rfl, hq⟩ := h' a bs hp _ b c' hf
  rw [rest_advance_append hr] at hr'
  refine ⟨bs ++ cs, t', ?_, ?_, hq⟩
  · rw [hr, hr', List.append_assoc]
  · rw [advance_advance, List.length_append]

theorem yields_byte : Yields byte fun b bs => bs = [b] := by
  intro c b c' hm
  cases hr : c.rest with
  | nil => simp only [byte, hr] at hm; cases hm
  | cons b' t => simp only [byte, hr] at hm; cases hm; exact ⟨[b], t, rfl, rfl, rfl⟩

theorem yields_take (n : Nat) : Yields (take n) fun bs cs => cs = bs ∧ bs.length = n := by
  intro c bs c' hm
  simp only [take] at hm
  split at hm
  · rename_i hn
    cases hm
    have hl : (c.rest.take n).length = n := by
      rw [List.length_take, length_rest]
      omega
    exact ⟨_, c.rest.drop n, (List.take_append_drop ..).symm, by rw [hl], rfl, hl⟩
  · cases hm

end Cursor

open Cursor

namespace Uleb128

/-- A last group stands for itself. It may be zero only where it is the first. -/
theorem takes_last {n v weight value : Nat} (hv : v < 128) (hlast : weight = 1 ∨ v ≠ 0)
    (hfit : value + weight * v < UInt32.size) :
    Takes (decodeFrom weight value (n + 1)) [.ofNat v] (.ofNat (value + weight * v)) := by
  rw [decodeFrom]
  apply (takes_byte _).bind_nil
  have hb : (UInt8.ofNat v).toNat = v := by rw [UInt8.toNat_ofNat']; omega
  simp only [hb, Nat.mod_eq_of_lt hv]
  rw [if_pos hv, if_neg (by omega), if_pos hfit]
  exact Takes.pure _

/-- A group and what is above it, each with its weight. -/
theorem weigh (weight value v : Nat) :
    value + weight * (v % 128) + weight * 128 * (v / 128) = value + weight * v := by
  rw [Nat.add_assoc, Nat.mul_assoc, ← Nat.mul_add, Nat.mod_add_div]

/-- The induction is on the groups that are left. What was read before them only adds to the value. -/
theorem takes_decodeFrom {n v weight value : Nat} (hv : v < 128 ^ (n + 1))
    (hlast : weight = 1 ∨ v ≠ 0) (hfit : value + weight * v < UInt32.size) :
    Takes (decodeFrom weight value (n + 1)) (groups n v) (.ofNat (value + weight * v)) := by
  induction n generalizing v weight value with
  | zero => exact takes_last (by simpa using hv) hlast hfit
  | succ n ih =>
    rw [groups]
    split
    · rename_i hlt
      exact takes_last hlt hlast hfit
    · rename_i hge
      have hb : (UInt8.ofNat (128 + v % 128)).toNat = 128 + v % 128 := by
        rw [UInt8.toNat_ofNat']
        omega
      rw [decodeFrom]
      refine (takes_byte _).bind (?_ : Takes _ (groups n (v / 128)) _)
      simp only [hb, Nat.add_mod_left, Nat.mod_mod]
      rw [if_neg (by omega)]
      have hq : v / 128 < 128 ^ (n + 1) := by
        rw [Nat.div_lt_iff_lt_mul (by decide)]
        exact hv
      rw [← weigh weight value v]
      exact ih hq (.inr (by omega)) (by rw [weigh]; exact hfit)

/-- Any 32-bit number is read back from its groups. -/
theorem takes_decode (v : UInt32) : Takes decode (encode v) v := by
  have hlt := v.toNat_lt
  have hv : v.toNat < UInt32.size := hlt
  have h : Takes (decodeFrom 1 0 5) (groups 4 v.toNat) (.ofNat (0 + 1 * v.toNat)) :=
    takes_decodeFrom (by omega) (.inl rfl) (by omega)
  rwa [Nat.zero_add, Nat.one_mul, UInt32.ofNat_toNat] at h

/-- Only the shortest groups are read: a last group of zero would have been left out. -/
theorem yields_decodeFrom (n weight value : Nat) :
    Yields (decodeFrom weight value n) fun a bs =>
      ∃ m v, n = m + 1 ∧ bs = groups m v ∧ (weight = 1 ∨ v ≠ 0) ∧ value + weight * v < UInt32.size ∧
        a = .ofNat (value + weight * v) := by
  induction n generalizing weight value with
  | zero => exact Yields.throw _
  | succ n ih =>
    rw [decodeFrom]
    apply yields_byte.bind
    rintro b _ rfl
    have hb : UInt8.ofNat b.toNat = b := UInt8.ofNat_toNat
    dsimp only
    split
    · rename_i hlt
      rw [Nat.mod_eq_of_lt hlt]
      split
      · exact Yields.throw _
      · rename_i hlast
        split
        · rename_i hfit
          refine Yields.pure ⟨n, b.toNat, rfl, ?_, by omega, hfit, rfl⟩
          cases n with
          | zero => simp [groups, hb]
          | succ n => simp [groups, hlt, hb]
        · exact Yields.throw _
    · rename_i hge
      apply (ih (weight * 128) (value + weight * (b.toNat % 128))).mono
      rintro a bs ⟨m, v, rfl, rfl, hv, hfit, rfl⟩
      have hlt := b.toNat_lt
      have hmod : (b.toNat % 128 + 128 * v) % 128 = b.toNat % 128 := by omega
      have hdiv : (b.toNat % 128 + 128 * v) / 128 = v := by omega
      have hw := weigh weight value (b.toNat % 128 + 128 * v)
      rw [hmod, hdiv] at hw
      have hhead : 128 + b.toNat % 128 = b.toNat := by omega
      refine ⟨m + 1, b.toNat % 128 + 128 * v, rfl, ?_, by omega, by rwa [← hw], by rw [hw]⟩
      rw [groups, if_neg (by omega), hmod, hdiv, hhead, hb]
      rfl

/-- A 32-bit number has no groups but its own. -/
theorem yields_decode : Yields decode fun v bs => bs = encode v := by
  apply (yields_decodeFrom 5 1 0).mono
  rintro a bs ⟨m, v, ⟨⟩, rfl, -, hfit, rfl⟩
  simp only [Nat.zero_add, Nat.one_mul] at hfit ⊢
  rw [encode, UInt32.toNat_ofNat_of_lt' hfit]

end Uleb128

namespace Scalar

theorem takes_readNumber_decode {w : Width} {bs : Bytes} (h : bs.length = w.bytes) :
    Takes (readNumber w) bs (w.decode bs) := by
  have ht := takes_take bs
  rw [h] at ht
  exact ht.bind_nil (f := fun bs => pure (w.decode bs)) (Takes.pure _)

theorem takes_readNumber {w : Width} (x : BitVec w.bits) :
    Takes (readNumber w) (Bytes.ofNat w.bytes x.toNat) x := by
  have h := takes_readNumber_decode (w.length_encode x)
  rwa [Width.decode_encode, Width.encode_eq] at h

/-- A number is read from all of its digits and from nothing else. -/
theorem yields_readNumber (w : Width) :
    Yields (readNumber w) fun x bs => bs = Bytes.ofNat w.bytes x.toNat := by
  apply (yields_take w.bytes).bind
  rintro _ bs ⟨rfl, hl⟩
  apply Yields.pure
  rw [List.append_nil, Width.toNat_decode hl, ← hl, Bytes.ofNat_toNat]

end Scalar

namespace FormatName

variable (n : FormatName)

theorem takes_decodeLength {k : Nat} (hk : k ≤ n.format.maxLength) :
    Takes n.format.decodeLength (n.lengthBytes k) k := by
  cases n with
  | canonical =>
    have hk : k ≤ Format.Canonical.maxLength := hk
    have hn : (UInt32.ofNat k).toNat = k :=
      UInt32.toNat_ofNat_of_lt' (Nat.lt_of_le_of_lt hk (by decide))
    apply (Uleb128.takes_decode (.ofNat k)).bind_nil
    rw [hn, if_pos hk]
    exact Takes.pure k
  | fast =>
    have hk : k ≤ Format.Fast.maxLength := hk
    have hn : Bytes.toNat (Bytes.ofNat 8 k) = k := by
      rw [Bytes.toNat_ofNat]
      exact Nat.mod_eq_of_lt (Nat.lt_of_le_of_lt hk (by decide))
    have ht := takes_take (Bytes.ofNat 8 k)
    rw [Bytes.length_ofNat] at ht
    apply ht.bind_nil
    simp only [hn]
    rw [if_pos hk]
    exact Takes.pure k

/-- A length that is read is one that can be written, and stands there as it is written. -/
theorem yields_decodeLength : Yields n.format.decodeLength fun k bs =>
    k ≤ n.format.maxLength ∧ bs = n.lengthBytes k := by
  cases n with
  | canonical =>
    apply Uleb128.yields_decode.bind
    rintro v _ rfl
    split
    · rename_i hk
      refine Yields.pure ⟨hk, ?_⟩
      rw [List.append_nil, lengthBytes, UInt32.ofNat_toNat]
    · exact Yields.throw _
  | fast =>
    apply (yields_take 8).bind
    rintro _ bs ⟨rfl, hl⟩
    dsimp only
    split
    · rename_i hk
      refine Yields.pure ⟨hk, ?_⟩
      rw [List.append_nil, lengthBytes, ← hl, Bytes.ofNat_toNat]
    · exact Yields.throw _

/-- Checking a length against the limit once more changes nothing. -/
theorem takes_readLength {k : Nat} (hk : k ≤ n.format.maxLength) :
    Takes n.format.readLength (n.lengthBytes k) k := by
  apply (n.takes_decodeLength hk).bind_nil
  rw [if_pos hk]
  exact Takes.pure k

theorem yields_readLength : Yields n.format.readLength fun k bs =>
    k ≤ n.format.maxLength ∧ bs = n.lengthBytes k := by
  apply n.yields_decodeLength.bind
  rintro k _ ⟨hk, rfl⟩
  rw [if_pos hk]
  exact Yields.pure ⟨hk, List.append_nil _⟩

theorem takes_decodeVariantIndex (i : UInt32) :
    Takes n.format.decodeVariantIndex (n.variantBytes i.toNat) i := by
  cases n with
  | canonical =>
    rw [variantBytes, UInt32.ofNat_toNat]
    exact Uleb128.takes_decode i
  | fast =>
    have h := (takes_take (Bytes.ofNat 4 i.toNat)).bind_nil
      (f := fun bs => pure (UInt32.ofNat (Bytes.toNat bs))) (Takes.pure _)
    have hi : i.toNat < 256 ^ 4 := i.toNat_lt
    rw [Bytes.length_ofNat, Bytes.toNat_ofNat, Nat.mod_eq_of_lt hi, UInt32.ofNat_toNat] at h
    exact h

theorem yields_decodeVariantIndex :
    Yields n.format.decodeVariantIndex fun i bs => bs = n.variantBytes i.toNat := by
  cases n with
  | canonical =>
    apply Uleb128.yields_decode.mono
    rintro v bs rfl
    rw [variantBytes, UInt32.ofNat_toNat]
  | fast =>
    apply (yields_take 4).bind
    rintro _ bs ⟨rfl, hl⟩
    have hlt := Bytes.toNat_lt bs
    rw [hl] at hlt
    apply Yields.pure
    rw [List.append_nil, variantBytes, UInt32.toNat_ofNat_of_lt' hlt, ← hl, Bytes.ofNat_toNat]

end FormatName

end WireCodec
