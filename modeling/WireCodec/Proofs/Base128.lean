import WireCodec.Proofs.Reading

/-!
# Numbers in base 128

Whatever bytes stand at a cursor, the first one below 128 among the next five decides. Without one
the number is cut off or too long. With one at index `k` the bytes up to it are the digits of the
number, which is refused if its last digit is a zero that could be left out, or if it does not fit
32 bits. What is left is the shortest form of each number and nothing else.
-/
namespace WireCodec.Uleb128

/-- The number with the digits that stand up to index `k`, lowest first. -/
def total (u : Bytes) (k : Nat) : Nat := ∑ i ∈ Finset.range (k + 1), (u.getD i 0).toNat % 128 * 128 ^ i

@[simp] theorem total_zero (b : UInt8) (u : Bytes) : total (b :: u) 0 = b.toNat % 128 := by
  simp [total]

@[simp] theorem total_succ (b : UInt8) (u : Bytes) (k : Nat) :
    total (b :: u) (k + 1) = b.toNat % 128 + 128 * total u k := by
  rw [total, Finset.sum_range_succ', total, Finset.mul_sum, Nat.add_comm]
  simp only [List.getD_cons_zero, List.getD_cons_succ, Nat.pow_zero, Nat.mul_one, Nat.pow_succ]
  congr 1
  exact Finset.sum_congr rfl fun i _ => by ring

/-- What a number comes to whose last digit has index `k`. Digits that were read before make up
`value`, and the first one of `u` counts `weight` times. -/
def verdict (weight value : Nat) (u : Bytes) (k : Nat) : Except Error UInt32 :=
  if (weight ≠ 1 ∨ 0 < k) ∧ u[k]? = some 0 then .error padded
  else if 2 ^ 32 ≤ value + weight * total u k then .error overflow
  else .ok (.ofNat (value + weight * total u k))

theorem verdict_succ (weight value : Nat) (b : UInt8) (u : Bytes) (k : Nat) :
    verdict (weight * 128) (value + weight * (b.toNat % 128)) u k =
      verdict weight value (b :: u) (k + 1) := by
  have hw : weight * 128 ≠ 1 := by omega
  have htotal : value + weight * (b.toNat % 128) + weight * 128 * total u k =
      value + weight * total (b :: u) (k + 1) := by
    rw [total_succ]
    ring
  simp [verdict, hw, htotal]

/-- The last digit decides without looking further. -/
theorem ended_last {b : UInt8} (h : b.toNat < 128) (weight value : Nat) (u : Bytes) (c : Cursor) :
    (if weight ≠ 1 ∧ b.toNat % 128 = 0 then throw padded
      else if value + weight * (b.toNat % 128) < UInt32.size then
        pure (.ofNat (value + weight * (b.toNat % 128)))
      else throw overflow : Reading UInt32) c = ended (verdict weight value (b :: u) 0) c := by
  have hzero : b.toNat % 128 = 0 ↔ b = 0 := by
    rw [Nat.mod_eq_of_lt h, ← UInt8.toNat_inj]
    rfl
  have hsize : UInt32.size = 2 ^ 32 := rfl
  simp only [verdict, total_zero, List.getElem?_cons_zero, Option.some.injEq, Nat.lt_irrefl, or_false,
    hzero, hsize, ← Nat.not_lt, ite_not]
  split
  · rfl
  · split <;> rfl

/-- The first byte below 128 decides, however many more digits may be read. -/
theorem decodeFrom_eq (n weight value : Nat) (c : Cursor) : decodeFrom weight value n c =
    match (c.rest.take n).findIdx? (·.toNat < 128) with
    | some k => ended (verdict weight value c.rest k) (c.advance (k + 1))
    | none =>
      if c.rest.length < n then
        .error (.truncated (c.offset + c.rest.length) 1 0) (c.advance c.rest.length)
      else .error overflow (c.advance n) := by
  induction n generalizing weight value c with
  | zero => rfl
  | succ n ih =>
    rw [decodeFrom]
    cases hr : c.rest with
    | nil =>
      have hb : Cursor.byte c = .error (.truncated c.offset 1 0) c := by
        simp only [Cursor.byte, hr]
      rw [bind_of_error hb]
      rfl
    | cons b u =>
      have hb : Cursor.byte c = .ok b (c.advance 1) := by
        simp only [Cursor.byte, hr]
      have hu : (c.advance 1).rest = u := by simp [hr]
      rw [bind_of_ok hb, List.take_succ_cons, List.findIdx?_cons]
      by_cases hlt : b.toNat < 128
      · simp only [hlt, decide_true, if_true]
        exact ended_last hlt weight value u (c.advance 1)
      · -- the digit joins the value, and indexes into the rest are one behind
        simp only [hlt, decide_false, if_false, Bool.false_eq_true]
        rw [ih, hu]
        cases (u.take n).findIdx? (·.toNat < 128) with
        | some k => simp only [verdict_succ, Cursor.advance_advance, Option.map_some, Nat.add_comm 1]
        | none =>
          simp only [Cursor.advance_advance, Cursor.offset_advance, Option.map_none, List.length_cons,
            Nat.add_lt_add_iff_right, Nat.add_assoc, Nat.add_comm 1]

/-- What becomes of any bytes at all: without a byte below 128 among the first five they are cut off
or too long, with one they are padded, too great or the number itself, and in each case it is known
how far the cursor gets. Every number has one to five bytes and no others. -/
theorem decode_classified :
    (∀ c : Cursor, decode c =
      match (c.rest.take 5).findIdx? (·.toNat < 128) with
      | some k =>
        ended (if 0 < k ∧ c.rest[k]? = some 0 then .error padded
          else if 2 ^ 32 ≤ total c.rest k then .error overflow
          else .ok (.ofNat (total c.rest k))) (c.advance (k + 1))
      | none =>
        if c.rest.length < 5 then
          .error (.truncated (c.offset + c.rest.length) 1 0) (c.advance c.rest.length)
        else .error overflow (c.advance 5)) ∧
    ∀ v : UInt32, 1 ≤ (encode v).length ∧ (encode v).length ≤ 5 ∧
      ∀ c : Cursor, decode c = .ok v (c.advance c.rest.length) ↔ c.rest = encode v := by
  constructor
  · intro c
    have h := decodeFrom_eq 5 1 0 c
    simp only [verdict, Nat.zero_add, Nat.one_mul, ne_eq, not_true_eq_false, false_or] at h
    exact h
  · intro v
    refine ⟨List.length_pos_iff.2 (groups_ne_nil _ _), length_groups_le _ _, fun c => ⟨fun h => ?_,
      fun h => ?_⟩⟩
    · obtain ⟨bs, t, hr, hc, rfl⟩ := yields_decode c v _ h
      have hlen : c.rest.length = (encode v).length := by
        have hoff := congrArg Cursor.offset hc
        simpa using hoff
      rw [hr, List.length_append] at hlen
      have ht : t = [] := List.length_eq_zero_iff.1 (by omega)
      rw [hr, ht, List.append_nil]
    · have hrun := takes_decode v c [] (by rw [h, List.append_nil])
      rwa [← h] at hrun

end WireCodec.Uleb128
