import WireCodec.Proofs.Decoding
import WireCodec.Proofs.Encoding
import WireCodec.Proofs.Primitives
import WireCodec.Proofs.Scripts

/-!
# Calls that mirror each other

Any sequence of primitive calls on an encoder can be repeated on a decoder over what they wrote:
the same kinds in the same order. Each call then gives back what its partner was given and stops
where its partner stopped, because a primitive takes just its own bytes off the input, whatever
comes after them.
-/
namespace WireCodec

open Step (run runAll runAll_cons)

/-- A primitive and what is to be written as one. -/
abbrev Primitive.Item := (p : Primitive) × p.Val

open Primitive (Item)

/-- The calls that write the items. -/
def Encoder.calls (F : Format) (items : List Item) : List (Step Encoder Unit) :=
  items.map fun i => .call (write F i.1 i.2)

/-- The calls that read items of the given kinds. -/
def Decoder.calls (F : Format) (kinds : List Primitive) : List (Step Decoder Item) :=
  kinds.map fun p => .call do return ⟨p, ← read F p⟩

/-- The bytes of the items, one after the other. -/
def Primitive.wireAll (n : FormatName) (items : List Item) : Bytes :=
  items.flatMap fun i => i.1.wire n i.2

@[simp] theorem Primitive.wireAll_nil (n : FormatName) : wireAll n [] = [] := rfl
@[simp] theorem Primitive.wireAll_cons (n : FormatName) (i : Item) (items : List Item) :
    wireAll n (i :: items) = i.1.wire n i.2 ++ wireAll n items := rfl

open Primitive

variable {n : FormatName} {items : List Item}

namespace Encoder

theorem run_write {p : Primitive} {v : p.Val} (h : p.Short n.format.maxLength v) (e : Encoder) :
    run (.call (write n.format p v)) e = .done () ⟨e.buffer ++ p.wire n v, e.depth⟩ := by
  have hw := (appends_write n p v e _).2 ⟨⟨h, Nat.zero_le _⟩, rfl⟩
  rw [run, hw]

theorem short_of_run {p : Primitive} {v : p.Val} {e : Encoder}
    (h : (run (.call (write n.format p v)) e).isFailed = false) : p.Short n.format.maxLength v := by
  rw [run] at h
  cases hw : write n.format p v e with
  | ok u e' => exact ((appends_write n p v e e').1 hw).1.1
  | error x e' =>
    rw [hw] at h
    cases h

theorem short_of_runAll {e : Encoder}
    (h : ∀ r ∈ (runAll false (calls n.format items) e).1, r.isFailed = false) :
    ∀ i ∈ items, i.1.Short n.format.maxLength i.2 := by
  induction items generalizing e with
  | nil => exact List.forall_mem_nil _
  | cons i items ih =>
    rw [calls, List.map_cons, runAll_cons, List.forall_mem_cons] at h
    exact List.forall_mem_cons.2 ⟨short_of_run h.1, ih h.2⟩

/-- Each call leaves the bytes of the items so far behind what the buffer held. -/
theorem runAll_calls (h : ∀ i ∈ items, i.1.Short n.format.maxLength i.2) (e : Encoder) :
    (runAll false (calls n.format items) e).2 = ⟨e.buffer ++ wireAll n items, e.depth⟩ ∧
      ∀ k, k < items.length → (runAll false (calls n.format items) e).1[k]? =
        some (.done () ⟨e.buffer ++ wireAll n (items.take (k + 1)), e.depth⟩) := by
  induction items generalizing e with
  | nil => exact ⟨by simp [calls, runAll], fun k hk => absurd hk (Nat.not_lt_zero k)⟩
  | cons i items ih =>
    rw [List.forall_mem_cons] at h
    have hrest := ih h.2 ⟨e.buffer ++ i.1.wire n i.2, e.depth⟩
    simp only [calls, List.map_cons, runAll_cons, run_write h.1, Report.after] at hrest ⊢
    refine ⟨by rw [hrest.1, wireAll_cons, List.append_assoc], fun k hk => ?_⟩
    cases k with
    | zero => simp
    | succ k =>
      rw [List.getElem?_cons_succ, hrest.2 k (Nat.lt_of_succ_lt_succ hk), List.take_succ_cons,
        wireAll_cons, List.append_assoc]

end Encoder

namespace Decoder

theorem run_read {p : Primitive} {v : p.Val} (h : p.Short n.format.maxLength v) {d : Decoder}
    {t : Bytes} (hr : d.cursor.rest = p.wire n v ++ t) :
    run (.call do return (⟨p, ← read n.format p⟩ : Item)) d =
      .done ⟨p, v⟩ ⟨d.cursor.advance (p.wire n v).length, d.depth⟩ := by
  have hread := (reads_read n p d v _).2 ⟨p.wire n v, t, hr, ⟨h, rfl⟩, rfl⟩
  rw [run, bind_of_ok hread]
  rfl

/-- Each call gives the item whose bytes it meets and passes just these. -/
theorem runAll_calls (h : ∀ i ∈ items, i.1.Short n.format.maxLength i.2) {d : Decoder} {t : Bytes}
    (hr : d.cursor.rest = wireAll n items ++ t) :
    (runAll false (calls n.format (items.map Sigma.fst)) d).2 =
        ⟨d.cursor.advance (wireAll n items).length, d.depth⟩ ∧
      ∀ k (hk : k < items.length),
        (runAll false (calls n.format (items.map Sigma.fst)) d).1[k]? =
          some (.done items[k] ⟨d.cursor.advance (wireAll n (items.take (k + 1))).length, d.depth⟩) := by
  induction items generalizing d with
  | nil => exact ⟨by simp [calls, runAll, Cursor.advance], fun k hk => absurd hk (Nat.not_lt_zero k)⟩
  | cons i items ih =>
    rw [List.forall_mem_cons] at h
    rw [wireAll_cons, List.append_assoc] at hr
    have hrest := ih h.2 (d := ⟨d.cursor.advance (i.1.wire n i.2).length, d.depth⟩)
      (Cursor.rest_advance_append hr)
    simp only [calls, List.map_cons, runAll_cons, run_read h.1 hr, Report.after,
      Cursor.advance_advance] at hrest ⊢
    refine ⟨by rw [hrest.1, wireAll_cons, List.length_append], fun k hk => ?_⟩
    cases k with
    | zero => simp
    | succ k =>
      rw [List.getElem?_cons_succ, hrest.2 k (Nat.lt_of_succ_lt_succ hk), List.take_succ_cons,
        wireAll_cons, List.length_append, List.getElem_cons_succ]

end Decoder

/-- Where every call of a sequence writes its item, the bytes they append are read back by the
same calls in the same order: each gives the item that was written, at the place that corresponds
to where it was written, and after the last one no input is left. -/
theorem reads_mirror_writes (n : FormatName) (items : List Item) (e : Encoder)
    (hok : ∀ r ∈ (runAll false (Encoder.calls n.format items) e).1, r.isFailed = false) :
    ∃ bs : Bytes,
      (runAll false (Encoder.calls n.format items) e).2 = ⟨e.buffer ++ bs, e.depth⟩ ∧
      ∀ b : DepthBudget,
        (∀ k (hk : k < items.length), ∃ (e' : Encoder) (d' : Decoder),
          (runAll false (Encoder.calls n.format items) e).1[k]? = some (.done () e') ∧
          (runAll false (Decoder.calls n.format (items.map Sigma.fst)) ⟨.start bs, b⟩).1[k]? =
            some (.done items[k] d') ∧
          e'.offset = e.offset + d'.offset) ∧
        (runAll false (Decoder.calls n.format (items.map Sigma.fst)) ⟨.start bs, b⟩).2.isFinished ∧
        (runAll false (Decoder.calls n.format (items.map Sigma.fst)) ⟨.start bs, b⟩).2.finish =
          .ok () := by
  have hshort := Encoder.short_of_runAll hok
  obtain ⟨hend, hwrites⟩ := Encoder.runAll_calls hshort e
  refine ⟨wireAll n items, hend, fun b => ?_⟩
  have hrest : (Cursor.start (wireAll n items)).rest = wireAll n items ++ [] :=
    (List.append_nil _).symm
  obtain ⟨hlast, hreads⟩ := Decoder.runAll_calls hshort (d := ⟨.start (wireAll n items), b⟩) hrest
  have hnone := Cursor.rest_advance_append hrest
  refine ⟨fun k hk => ⟨_, _, hwrites k hk, hreads k hk, ?_⟩, ?_, ?_⟩
  · simp [Encoder.offset, Decoder.offset, Cursor.start]
  · rw [hlast, Decoder.isFinished, Cursor.isEmpty, ← Cursor.length_rest, hnone]
    rfl
  · rw [hlast]
    exact Decoder.finish_eq_ok.2 hnone

/-- A character of two bytes, a text, a tag, a length and an index of two groups and the bits of a
quiet NaN, behind two bytes that are there already. -/
theorem reads_mirror_writes_mixed :
    let items : List Item := [⟨.scalar .char, 'é'⟩, ⟨.scalar .text, "né"⟩, ⟨.presence, true⟩,
      ⟨.length, (300 : Nat)⟩, ⟨.variantIndex, (200 : UInt32)⟩, ⟨.scalar (.float .single), 0x7fc00001#32⟩]
    let e : Encoder := ⟨[1, 2], .full 0⟩
    let writes := runAll false (Encoder.calls FormatName.canonical.format items) e
    (∀ r ∈ writes.1, r.isFailed = false) ∧
    ∃ bs : Bytes, writes.2 = ⟨[1, 2] ++ bs, .full 0⟩ ∧ ∀ b : DepthBudget,
      let reads := runAll false
        (Decoder.calls FormatName.canonical.format (items.map Sigma.fst)) ⟨.start bs, b⟩
      (∀ k (hk : k < items.length), ∃ (e' : Encoder) (d' : Decoder),
        writes.1[k]? = some (.done () e') ∧ reads.1[k]? = some (.done items[k] d') ∧
          e'.offset = e.offset + d'.offset) ∧
        reads.2.isFinished ∧ reads.2.finish = .ok () := by
  intro items e writes
  have hok : ∀ r ∈ writes.1, r.isFailed = false := by decide +kernel
  exact ⟨hok, reads_mirror_writes .canonical items e hok⟩

end WireCodec
