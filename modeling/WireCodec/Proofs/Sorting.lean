import WireCodec.Proofs.Encoding

/-!
# Sorting entries where they stand

A caller who has entries sorted names their starts, in whatever buffer and whatever they are. The
starts cut the tail of the buffer into ranges, each up to the next start and the last up to the end.
If one of the ranges is bad the first of them is reported and nothing moves. Otherwise the tail is
put together anew from the same entries, and as the new starts cut it into the entries in their new
order, there is nothing left to do for another call.
-/
namespace WireCodec.Encoder

/-- From where to where each of the entries stands that start at `os`, the last one up to `limit`. -/
def entryRanges (limit : Nat) (os : List Nat) : List (Nat × Nat) := os.zip (os.tail ++ [limit])

@[simp] theorem entryRanges_nil (limit : Nat) : entryRanges limit [] = [] := rfl
@[simp] theorem entryRanges_singleton (limit a : Nat) : entryRanges limit [a] = [(a, limit)] := rfl
@[simp] theorem entryRanges_cons_cons (limit a b : Nat) (os : List Nat) :
    entryRanges limit (a :: b :: os) = (a, b) :: entryRanges limit (b :: os) := rfl

theorem firstBad?_eq (limit : Nat) (os : List Nat) :
    firstBad? limit os = (entryRanges limit os).find? fun r => r.2 < r.1 ∨ limit < r.2 := by
  induction os with
  | nil => rfl
  | cons a os ih =>
    cases os with
    | nil => by_cases h : a ≤ limit <;> simp [firstBad?, h]
    | cons b os =>
      rw [entryRanges_cons_cons, List.find?_cons, ← ih, firstBad?]
      by_cases h : a ≤ b ∧ b ≤ limit
      · have hgood : ¬ (b < a ∨ limit < b) := by omega
        simp [h, hgood]
      · have hbad : b < a ∨ limit < b := by omega
        simp [h, hbad]

theorem entriesAt_eq (buffer : Bytes) (os : List Nat) :
    entriesAt buffer os = (entryRanges buffer.length os).map fun r => buffer.extract r.1 r.2 := by
  induction os with
  | nil => rfl
  | cons a os ih =>
    cases os with
    | nil => simp [entriesAt, List.extract_eq_take_drop]
    | cons b os => simp [entriesAt, List.extract_eq_take_drop, ih]

/-- No range is bad just where the starts do not go back and stay within the buffer. -/
theorem firstBad?_eq_none {limit : Nat} {os : List Nat} :
    firstBad? limit os = none ↔ os.Pairwise (· ≤ ·) ∧ ∀ o ∈ os, o ≤ limit := by
  rw [← List.isChain_iff_pairwise]
  induction os with
  | nil => simp [firstBad?]
  | cons a os ih =>
    cases os with
    | nil => simp [firstBad?]
    | cons b os =>
      rw [firstBad?, List.isChain_cons_cons, List.forall_mem_cons]
      by_cases h : a ≤ b ∧ b ≤ limit
      · rw [if_pos h, ih]
        have ha : a ≤ limit := h.1.trans h.2
        simp [h.1, ha]
      · rw [if_neg h]
        exact iff_of_false (by simp) fun hos => h ⟨hos.1.1, hos.2.2 b List.mem_cons_self⟩

/-- Where the first entry starts, or the end of the buffer where there is none. -/
def tailStart (buffer : Bytes) (os : List Nat) : Nat := os.headD buffer.length

section Cut

variable {buffer : Bytes} {os : List Nat} (h : firstBad? buffer.length os = none)

include h

theorem length_take_tailStart : (buffer.take (tailStart buffer os)).length = tailStart buffer os := by
  cases os with
  | nil => simp [tailStart]
  | cons a os => exact List.length_take_of_le ((firstBad?_eq_none.1 h).2 a List.mem_cons_self)

theorem take_append_entriesAt :
    buffer.take (tailStart buffer os) ++ (entriesAt buffer os).flatten = buffer := by
  cases os with
  | nil => simp [tailStart, entriesAt]
  | cons a os =>
    rw [flatten_entriesAt h]
    exact List.take_append_drop a buffer

/-- The entries start where they were said to. -/
theorem starts_entriesAt : starts (tailStart buffer os) (entriesAt buffer os) = os := by
  induction os with
  | nil => rfl
  | cons a os ih =>
    cases os with
    | nil => rfl
    | cons b os =>
      simp only [firstBad?] at h
      split at h
      · rename_i hab
        have hend : a + ((buffer.drop a).take (b - a)).length = b := by
          rw [List.length_take, List.length_drop]
          omega
        have hs : starts b (entriesAt buffer (b :: os)) = b :: os := ih h
        simp only [tailStart, List.headD_cons, entriesAt, starts_cons, hend, hs]
      · cases h

end Cut

/-- What a buffer holds whose tail has been put together anew from the entries that start at `os`.
These are `cs` in their new order, and sorting them again leaves them there. -/
structure Rearranged (n : FormatName) (os : List Nat) (e e' : Encoder) (cs : List Bytes) : Prop where
  entries : cs.Perm ((entryRanges e.buffer.length os).map fun r => e.buffer.extract r.1 r.2)
  buffer : e'.buffer = e.buffer.take (tailStart e.buffer os) ++ cs.flatten
  length : e'.buffer.length = e.buffer.length
  depth : e'.depth = e.depth
  ascending : n = .canonical → cs.Pairwise fun a b => (compare a b).isLE
  kept : n = .fast → cs = (entryRanges e.buffer.length os).map (fun r => e.buffer.extract r.1 r.2) ∧
    e' = e
  again : sortEntries n.format (starts (tailStart e.buffer os) cs) e' = .ok () e'

section Sorted

variable {n : FormatName} {os : List Nat} {e : Encoder} (h : firstBad? e.buffer.length os = none)

include h

theorem sortEntries_eq_ok : sortEntries n.format os e =
    .ok () ⟨e.buffer.take (tailStart e.buffer os) ++ (n.arrange (entriesAt e.buffer os)).flatten,
      e.depth⟩ := by
  have hs := sortEntries_starts n (e.buffer.take (tailStart e.buffer os)) (entriesAt e.buffer os) e.depth
  rwa [length_take_tailStart h, starts_entriesAt h, take_append_entriesAt h] at hs

theorem rearranged : Rearranged n os e
    ⟨e.buffer.take (tailStart e.buffer os) ++ (n.arrange (entriesAt e.buffer os)).flatten, e.depth⟩
    (n.arrange (entriesAt e.buffer os)) := by
  have hperm := n.arrange_perm (entriesAt e.buffer os)
  have hcut := take_append_entriesAt h
  refine ⟨?_, rfl, ?_, rfl, ?_, ?_, ?_⟩
  · rwa [← entriesAt_eq]
  · conv_rhs => rw [← hcut]
    rw [List.length_append, List.length_append, hperm.flatten.length_eq]
  · rintro rfl
    exact FormatName.arrange_ascending _
  · rintro rfl
    exact ⟨entriesAt_eq .., congrArg (Encoder.mk · e.depth) hcut⟩
  · have hs := sortEntries_starts n (e.buffer.take (tailStart e.buffer os))
      (n.arrange (entriesAt e.buffer os)) e.depth
    rwa [length_take_tailStart h, n.arrange_arrange] at hs

end Sorted

/-- Sorting succeeds for starts that do not go back and stay within the buffer, whatever stands
there. Otherwise it reports the first range that is inverted or ends past the buffer and changes
nothing. Where it succeeds, it has moved whole entries and nothing else. -/
theorem sorting_moves_entries (n : FormatName) (os : List Nat) (e : Encoder) :
    ((∃ e', sortEntries n.format os e = .ok () e') ↔
      os.Pairwise (· ≤ ·) ∧ ∀ o ∈ os, o ≤ e.buffer.length) ∧
    (¬ (os.Pairwise (· ≤ ·) ∧ ∀ o ∈ os, o ≤ e.buffer.length) →
      ∃ a b, (entryRanges e.buffer.length os).find? (fun r => r.2 < r.1 ∨ e.buffer.length < r.2) =
          some (a, b) ∧
        sortEntries n.format os e = .error (.invalidRange "map entry" a b e.buffer.length) e) ∧
    ∀ e', sortEntries n.format os e = .ok () e' → ∃ cs, Rearranged n os e e' cs := by
  rw [← firstBad?_eq_none, ← firstBad?_eq]
  cases h : firstBad? e.buffer.length os with
  | none =>
    rw [sortEntries_eq_ok h]
    refine ⟨iff_of_true ⟨_, rfl⟩ rfl, fun hne => absurd rfl hne, fun e' he => ?_⟩
    cases he
    exact ⟨_, rearranged h⟩
  | some r =>
    have hrun : sortEntries n.format os e =
        .error (.invalidRange "map entry" r.1 r.2 e.buffer.length) e := by
      simp only [sortEntries, h]
    rw [hrun]
    exact ⟨iff_of_false (by simp) (by simp), fun _ => ⟨r.1, r.2, rfl, rfl⟩, by simp⟩

/-- A byte before the first entry, an entry without bytes and two that are the same; and starts that
go back and then run past the end. -/
theorem sorting_moves_entries_gap :
    (∃ cs, Rearranged .canonical [1, 1, 2, 3] ⟨[9, 7, 7, 5], .full 1⟩ ⟨[9, 5, 7, 7], .full 1⟩ cs) ∧
    sortEntries FormatName.fast.format [1, 3, 2, 8] ⟨[9, 7, 7, 5], .full 1⟩ =
      .error (.invalidRange "map entry" 3 2 4) ⟨[9, 7, 7, 5], .full 1⟩ := by
  constructor
  · exact (sorting_moves_entries .canonical [1, 1, 2, 3] ⟨[9, 7, 7, 5], .full 1⟩).2.2 _ (by cbv)
  · obtain ⟨a, b, hfirst, hrun⟩ :=
      (sorting_moves_entries .fast [1, 3, 2, 8] ⟨[9, 7, 7, 5], .full 1⟩).2.1 (by decide)
    cases hfirst
    exact hrun

end WireCodec.Encoder
