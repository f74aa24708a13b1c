import WireCodec.Proofs.Decoding
import WireCodec.Proofs.Programs
import WireCodec.Schema.Drawing

/-!
# Indexes and counters stay in range

Positions, counts and depths are machine words, of which one may be taken from another only if it
is not the greater, and of which two may be added only if the sum is a word; a slice has to lie
within the bytes it is cut from. No call can break these rules, whatever lengths, ranges and
offsets it is given and whatever has failed before: a cursor never goes back nor beyond its
input, and a budget never holds more than its maximum.
-/
namespace WireCodec

open HasDepth (budget setBudget close)

/-- The difference of two words, if it is one. -/
def sub? (a b : Nat) : Option Nat := if b ≤ a then some (a - b) else none

/-- The sum of two words, if it is one. -/
def add? (a b : Nat) : Option Nat := if a + b < UInt64.size then some (a + b) else none

/-- What stands from `a` up to `b`, if these lie within the bytes and in this order. -/
def Bytes.slice? (bs : Bytes) (a b : Nat) : Option Bytes :=
  if a ≤ b ∧ b ≤ bs.length then some (bs.extract a b) else none

theorem sub?_of_le {a b : Nat} (h : b ≤ a) : sub? a b = some (a - b) := if_pos h

theorem add?_of_lt {a b : Nat} (h : a + b < UInt64.size) : add? a b = some (a + b) := if_pos h

theorem Bytes.slice?_of_le {bs : Bytes} {a b : Nat} (h : a ≤ b ∧ b ≤ bs.length) :
    slice? bs a b = some (bs.extract a b) := if_pos h

open Bytes (slice?)

/-- Where a cursor is in range, so is what it computes to read on. -/
structure Cursor.InRange (c : Cursor) : Prop where
  word : c.input.length < UInt64.size
  within : c.offset ≤ c.input.length
  total : c.offset + c.remaining = c.input.length
  remaining : sub? c.input.length c.offset = some c.remaining
  take : ∀ k bs e, Cursor.take k c = .ok bs e →
    add? c.offset k = some e.offset ∧ slice? c.input c.offset e.offset = some bs
  byte : ∀ b e, Cursor.byte c = .ok b e →
    add? c.offset 1 = some e.offset ∧ slice? c.input c.offset e.offset = some [b]

/-- A slice that is taken ends at a word and within the input. -/
theorem Cursor.slice_of_take {c e : Cursor} {k : Nat} {bs : Bytes}
    (hw : c.input.length < UInt64.size) (h : c.offset ≤ c.input.length)
    (hrun : Cursor.take k c = .ok bs e) :
    add? c.offset k = some e.offset ∧ slice? c.input c.offset e.offset = some bs := by
  simp only [Cursor.take] at hrun
  split at hrun
  · rename_i hk
    cases hrun
    have hend : c.offset + k ≤ c.input.length := by
      rw [Cursor.remaining] at hk
      omega
    refine ⟨add?_of_lt (Nat.lt_of_le_of_lt hend hw), ?_⟩
    rw [offset_advance, Bytes.slice?_of_le ⟨Nat.le_add_right .., hend⟩, List.extract_eq_take_drop,
      Nat.add_sub_cancel_left]
    rfl
  · cases hrun

theorem Cursor.inRange {c : Cursor} (hw : c.input.length < UInt64.size)
    (h : c.offset ≤ c.input.length) : c.InRange := by
  refine ⟨hw, h, Nat.add_sub_cancel' h, sub?_of_le h, fun k bs e => slice_of_take hw h,
    fun b e hrun => ?_⟩
  -- a byte is taken as a slice of length one is
  have hone := take_one c
  rw [bind_of_ok hrun] at hone
  exact slice_of_take hw h hone

/-- A budget of a word counts in words. -/
structure DepthBudget.InRange (b : DepthBudget) : Prop where
  word : b.max < UInt64.size
  within : b.remaining ≤ b.max
  depth : sub? b.max b.remaining = some b.depth
  enter : ∀ c, b.enter = .ok c → sub? b.remaining 1 = some c.remaining
  exit : b.remaining < b.max → add? b.remaining 1 = some b.exit.remaining

theorem DepthBudget.inRange {b : DepthBudget} (h : b.max < UInt64.size) : b.InRange := by
  refine ⟨h, b.remaining_le, sub?_of_le b.remaining_le, fun c hc => ?_, fun hlt => ?_⟩
  · obtain ⟨-, hr⟩ := enter_eq_ok.1 hc
    rw [sub?_of_le (by omega), hr, Nat.add_sub_cancel]
  · rw [add?_of_lt (by omega), DepthBudget.exit, dif_pos hlt]

/-- An operation of a cursor passes no more than what remains. -/
theorem Cursor.exists_advance {α : Type} {m : Reading α} (h : Op α m) (c : Cursor) :
    ∃ r k, k ≤ c.remaining ∧ m c = ended r (c.advance k) := by
  cases h with
  | take k =>
    by_cases hk : k ≤ c.remaining
    · exact ⟨.ok _, k, hk, if_pos hk⟩
    · exact ⟨.error _, 0, Nat.zero_le _, if_neg hk⟩
  | byte =>
    have hl := c.length_rest
    rw [byte]
    cases hr : c.rest with
    | nil => exact ⟨.error _, 0, Nat.zero_le _, rfl⟩
    | cons b bs =>
      rw [hr, List.length_cons] at hl
      exact ⟨.ok b, 1, by omega, rfl⟩

section Budgets

variable {σ : Type} [HasDepth σ] {R : σ → σ → Prop}
  (hset : ∀ s (b : DepthBudget), b.max = (budget s).max → R s (setBudget s b))

include hset

theorem keeps_enter [IsPreorder σ R] : Keeps R (HasDepth.enter (σ := σ)) := by
  intro s r t hr
  simp only [HasDepth.enter] at hr
  split at hr
  · rename_i b hb
    obtain ⟨-, rfl⟩ := ended_inj (r := .ok ()) hr
    exact hset s b (DepthBudget.enter_eq_ok.1 hb).1.symm
  · rename_i x hx
    obtain ⟨-, rfl⟩ := ended_inj (r := .error x) hr
    exact refl_of R s

theorem keeps_exit : Keeps R (HasDepth.exit (σ := σ)) := by
  intro s r t hr
  obtain ⟨-, rfl⟩ := ended_inj (r := .ok ()) hr
  exact hset s _ (DepthBudget.max_exit _)

theorem keeps_reset : Keeps R (HasDepth.reset (σ := σ)) := by
  intro s r t hr
  obtain ⟨-, rfl⟩ := ended_inj (r := .ok ()) hr
  exact hset s _ rfl

/-- Where what operations keep cannot end `I`, it holds in all states of a script and whenever
a call comes to an operation, be it a call of the script or one that it might make next. -/
theorem script_safe [IsPreorder σ R] {Op : (α : Type) → EStateM Error σ α → Prop} {I : σ → Prop}
    (hop : ∀ α m, Op α m → Keeps R m) (hI : ∀ s t, R s t → I s → I t) {α : Type}
    {steps : List (Step σ α)} (h : Step.CallsAll (MadeOf Op) steps) (stops : Bool) {s : σ}
    (hs : I s) :
    (Step.states stops steps s).Pairwise R ∧ ∀ t ∈ Step.states stops steps s,
      I t ∧ ∀ (β : Type) (m : EStateM Error σ β), MadeOf Op m → Safe Op I m t := by
  have hclose : ∀ s, R s (close s) := fun s => hset s _ (DepthBudget.max_exit _)
  have hpath := Step.path_runAll (fun m hm => hm.keeps hop) (keeps_enter hset) hclose h stops s
  refine ⟨hpath.pairwise, fun t ht => ?_⟩
  have hst : R s t := by
    rcases List.mem_cons.1 ht with rfl | ht
    · exact refl_of R t
    · exact List.rel_of_pairwise_cons hpath.pairwise ht
  exact ⟨hI s t hst hs, fun β m hm => hm.safe hop hI (hI s t hst hs)⟩

end Budgets

namespace Decoder

structure InRange (d : Decoder) : Prop where
  cursor : d.cursor.InRange
  depth : d.depth.InRange
  /-- A stretch of input that passes for a key can be cut out. -/
  key : ∀ a b bs e, consumed a b d = .ok bs e → slice? d.cursor.input a b = some bs

theorem inRange {d : Decoder} (hw : d.cursor.input.length < UInt64.size)
    (h : d.offset ≤ d.cursor.input.length) (hb : d.depth.max < UInt64.size) : d.InRange := by
  refine ⟨Cursor.inRange hw h, DepthBudget.inRange hb, fun a b bs e hrun => ?_⟩
  rw [consumed] at hrun
  split at hrun
  · rename_i hab
    cases hrun
    exact Bytes.slice?_of_le ⟨hab.1, hab.2.trans h⟩
  · cases hrun

/-- What lies between two states of one decoder, the first being the earlier one. -/
structure Onward (d e : Decoder) : Prop where
  input : e.cursor.input = d.cursor.input
  forward : d.offset ≤ e.offset
  within : d.offset ≤ d.cursor.input.length → e.offset ≤ e.cursor.input.length
  max : e.depth.max = d.depth.max

instance : IsPreorder Decoder Onward where
  refl _ := ⟨rfl, Nat.le_refl _, id, rfl⟩
  trans _ _ _ h h' := ⟨h'.input.trans h.input, h.forward.trans h'.forward,
    fun hc => h'.within (h.within hc), h'.max.trans h.max⟩

theorem Onward.inRange {d e : Decoder} (h : Onward d e) (hd : d.InRange) : e.InRange := by
  refine Decoder.inRange ?_ (h.within hd.cursor.within) ?_
  · rw [h.input]
    exact hd.cursor.word
  · rw [h.max]
    exact hd.depth.word

theorem onward_setBudget (d : Decoder) (b : DepthBudget) (h : b.max = d.depth.max) :
    Onward d (setBudget d b) := ⟨rfl, Nat.le_refl _, id, h⟩

theorem onward_of_take {d : Decoder} {k : Nat} (h : k ≤ d.remaining) :
    Onward d ⟨d.cursor.advance k, d.depth⟩ := by
  refine ⟨rfl, Nat.le_add_right .., fun hd => ?_, rfl⟩
  change k ≤ d.cursor.input.length - d.offset at h
  change d.offset + k ≤ d.cursor.input.length
  omega

theorem checkKeys_eq (F : Format) (a b c d : Nat) (s : Decoder) :
    checkKeys F a b c d s =
      match [(a, b), (c, d)].find? fun p => ¬ (p.1 ≤ p.2 ∧ p.2 ≤ s.offset) with
      | some p => .error (.invalidRange "map key" p.1 p.2 s.offset) s
      | none => ended (F.checkKeyOrder (s.cursor.input.extract a b) (s.cursor.input.extract c d)) s := by
  have hbad : ∀ p : Nat × Nat, ¬ (p.1 ≤ p.2 ∧ p.2 ≤ s.offset) →
      consumed p.1 p.2 s = .error (.invalidRange "map key" p.1 p.2 s.offset) s := fun p hp => if_neg hp
  have hgood : ∀ p : Nat × Nat, p.1 ≤ p.2 ∧ p.2 ≤ s.offset →
      consumed p.1 p.2 s = .ok (s.cursor.input.extract p.1 p.2) s := fun p hp => if_pos hp
  -- the second range is looked at only where the first one is good
  by_cases hab : a ≤ b ∧ b ≤ s.offset
  · by_cases hcd : c ≤ d ∧ d ≤ s.offset
    · rw [checkKeys, bind_of_ok (hgood (a, b) hab), bind_of_ok (hgood (c, d) hcd)]
      simp only [List.find?, hab, hcd]
      cases F.checkKeyOrder _ _ <;> rfl
    · rw [checkKeys, bind_of_ok (hgood (a, b) hab), bind_of_error (hbad (c, d) hcd)]
      simp only [List.find?, hab, hcd]
      rfl
  · rw [checkKeys, bind_of_error (hbad (a, b) hab)]
    simp only [List.find?, hab]
    rfl

/-- The orders of the two formats are about keys, not about ranges. -/
theorem checkKeys_eq_invalidRange (n : FormatName) (a b c d : Nat) (s : Decoder) :
    (∃ what start stop limit, checkKeys n.format a b c d s =
      .error (.invalidRange what start stop limit) s) ↔
    ∃ p ∈ [(a, b), (c, d)], p.2 < p.1 ∨ s.offset < p.2 := by
  have hbad : ∀ p : Nat × Nat, decide (¬ (p.1 ≤ p.2 ∧ p.2 ≤ s.offset)) = true ↔
      p.2 < p.1 ∨ s.offset < p.2 := by
    intro p
    rw [decide_eq_true_iff]
    omega
  simp only [checkKeys_eq, ← hbad]
  cases hf : [(a, b), (c, d)].find? fun p => ¬ (p.1 ≤ p.2 ∧ p.2 ≤ s.offset) with
  | some p =>
    have hp := List.find?_some hf
    exact iff_of_true ⟨_, _, _, _, rfl⟩ ⟨p, List.mem_of_find?_eq_some hf, hp⟩
  | none =>
    refine iff_of_false ?_ fun ⟨p, hp, hbad⟩ => List.find?_eq_none.1 hf p hp hbad
    rintro ⟨what, start, stop, limit, h⟩
    obtain hk | ⟨-, hk⟩ := checkKeyOrder_cases n (s.cursor.input.extract a b)
      (s.cursor.input.extract c d)
    · simp only [hk] at h
      cases h
    · simp only [hk] at h
      cases h

theorem checkKeys_stays {F : Format} {a b c d : Nat} {s t : Decoder} {r : Except Error Unit}
    (h : checkKeys F a b c d s = ended r t) : t = s := by
  rw [checkKeys_eq] at h
  split at h
  · exact (ended_inj (r := .error _) h).2.symm
  · exact (ended_inj h).2.symm

theorem keeps_op {F : Format} {α : Type} {m : Decoding α} (h : Op F α m) : Keeps Onward m := by
  intro d r e hr
  cases h with
  | read h =>
    obtain ⟨r', k, hk, hm⟩ := Cursor.exists_advance h d.cursor
    have hrun := reading_of_ended d.depth hm
    obtain ⟨-, rfl⟩ := ended_inj (hrun.symm.trans hr)
    exact onward_of_take hk
  | check a b c d' =>
    obtain rfl := checkKeys_stays hr
    exact refl_of Onward e
  | enter => exact keeps_enter onward_setBudget d r e hr
  | exit => exact keeps_exit onward_setBudget d r e hr
  | reset => exact keeps_reset onward_setBudget d r e hr

end Decoder

namespace Encoder

/-- The entry from `a` up to `b` in a tail that was split off a buffer at `first`. -/
def entryIn? (tail : Bytes) (first a b : Nat) : Option Bytes := do
  slice? tail (← sub? a first) (← sub? b first)

/-- The entries in a tail that was split off a buffer of length `len` at `first`. -/
def entriesIn? (tail : Bytes) (first len : Nat) : List Nat → Option (List Bytes)
  | [] => some []
  | [a] => do return [← entryIn? tail first a len]
  | a :: b :: os => do return (← entryIn? tail first a b) :: (← entriesIn? tail first len (b :: os))

structure InRange (e : Encoder) : Prop where
  depth : e.depth.InRange
  /-- Entries that are sorted can be cut out of the buffer. -/
  sort : ∀ F a b os e', sortEntries F (a :: b :: os) e = .ok () e' →
    slice? e.buffer 0 a = some (e.buffer.take a) ∧
    slice? e.buffer a e.buffer.length = some (e.buffer.drop a) ∧
    entriesIn? (e.buffer.drop a) a e.buffer.length (a :: b :: os) =
      some (entriesAt e.buffer (a :: b :: os))

/-- Where an entry stands in the tail. -/
theorem entryIn?_eq {buffer : Bytes} {first a b : Nat} (hfirst : first ≤ a) (hab : a ≤ b)
    (hb : b ≤ buffer.length) :
    entryIn? (buffer.drop first) first a b = some ((buffer.drop a).take (b - a)) := by
  have hle : a - first ≤ b - first ∧ b - first ≤ (buffer.drop first).length := by
    rw [List.length_drop]
    omega
  have hstart : first + (a - first) = a := by omega
  have hlen : b - first - (a - first) = b - a := by omega
  rw [entryIn?, sub?_of_le hfirst, sub?_of_le (hfirst.trans hab)]
  refine (Bytes.slice?_of_le hle).trans ?_
  rw [List.extract_eq_take_drop, List.drop_drop, hstart, hlen]

theorem entriesIn?_eq {buffer : Bytes} {first a : Nat} {os : List Nat} (hfirst : first ≤ a)
    (h : firstBad? buffer.length (a :: os) = none) :
    entriesIn? (buffer.drop first) first buffer.length (a :: os) =
      some (entriesAt buffer (a :: os)) := by
  induction os generalizing a with
  | nil =>
    simp only [firstBad?] at h
    split at h
    · rename_i ha
      rw [entriesIn?, entryIn?_eq hfirst ha (Nat.le_refl _), ← List.length_drop, List.take_length]
      rfl
    · cases h
  | cons b os ih =>
    simp only [firstBad?] at h
    split at h
    · rename_i hab
      rw [entriesIn?, entryIn?_eq hfirst hab.1 hab.2, ih (hfirst.trans hab.1) h]
      rfl
    · cases h

theorem inRange {e : Encoder} (h : e.depth.max < UInt64.size) : e.InRange := by
  refine ⟨DepthBudget.inRange h, fun F a b os e' hrun => ?_⟩
  simp only [sortEntries] at hrun
  split at hrun
  · cases hrun
  · rename_i hgood
    have ha : a ≤ e.buffer.length := by
      simp only [firstBad?] at hgood
      split at hgood
      · omega
      · cases hgood
    refine ⟨?_, ?_, entriesIn?_eq (Nat.le_refl a) hgood⟩
    · rw [Bytes.slice?_of_le ⟨Nat.zero_le a, ha⟩, List.extract_eq_take_drop]
      rfl
    · rw [Bytes.slice?_of_le ⟨ha, Nat.le_refl _⟩, List.extract_eq_take_drop, ← List.length_drop,
        List.take_length]

def SameMax (e e' : Encoder) : Prop := e'.depth.max = e.depth.max

instance : IsPreorder Encoder SameMax where
  refl _ := rfl
  trans _ _ _ h h' := Eq.trans h' h

theorem sameMax_setBudget (e : Encoder) (b : DepthBudget) (h : b.max = e.depth.max) :
    SameMax e (setBudget e b) := h

theorem keeps_op {F : Format} {α : Type} {m : Encoding α} (h : Op F α m) : Keeps SameMax m := by
  intro e r e' hr
  cases h with
  | write p v =>
    rw [write] at hr
    cases hw : p.write F v with
    | ok bs =>
      rw [hw] at hr
      obtain ⟨-, rfl⟩ := ended_inj (r := .ok ()) hr
      rfl
    | error x =>
      rw [hw] at hr
      obtain ⟨-, rfl⟩ := ended_inj (r := .error x) hr
      rfl
  | sort os =>
    simp only [sortEntries] at hr
    split at hr
    · obtain ⟨-, rfl⟩ := ended_inj (r := .error _) hr
      rfl
    · split at hr <;> (obtain ⟨-, rfl⟩ := ended_inj (r := .ok ()) hr; rfl)
  | clear =>
    obtain ⟨-, rfl⟩ := ended_inj (r := .ok ()) hr
    rfl
  | enter => exact keeps_enter sameMax_setBudget e r e' hr
  | exit => exact keeps_exit sameMax_setBudget e r e' hr
  | reset => exact keeps_reset sameMax_setBudget e r e' hr

end Encoder

/-- No call computes an index or a counter that is out of range. The calls of decoders and encoders
are made of a few operations, for any format whose own reads are made of those of the cursor. A
script of calls that are so made, on a decoder over any input or on any encoder, may fail as often
as it likes and go on: the cursor goes forward within the input, the budget keeps its bounds, and
every operation that any call comes to, in whatever state of the script, is in range. A check on
keys reports the first range that is inverted or has not all been read, else what the format says,
and moves nothing. -/
theorem calls_in_range :
    (∀ n : FormatName, n.format.MadeOfReads) ∧
    (∀ F : Format, F.MadeOfReads →
      (∀ p, MadeOf (Decoder.Op F) (Decoder.read F p)) ∧
      (∀ count, MadeOf (Decoder.Op F) (Decoder.readVariant F count)) ∧
      ∀ s : Schema, MadeOf (Decoder.Op F) (s.decode F)) ∧
    (∀ (F : Format) (α : Type) (m : Reading α), MadeOf Cursor.Op m →
      MadeOf (Decoder.Op F) (Decoder.reading m)) ∧
    (∀ (F : Format) (s : Schema) (v : s.Val), MadeOf (Encoder.Op F) (s.encode F v)) ∧
    (∀ (F : Format) (α : Type) (steps : List (Step Decoder α)) (stops : Bool) (input : Bytes)
      (b : DepthBudget), Step.CallsAll (MadeOf (Decoder.Op F)) steps →
      input.length < UInt64.size → b.max < UInt64.size →
      (Step.states stops steps ⟨.start input, b⟩).Pairwise Decoder.Onward ∧
      ∀ d ∈ Step.states stops steps ⟨.start input, b⟩, d.InRange ∧
        ∀ (β : Type) (m : Decoding β), MadeOf (Decoder.Op F) m →
          Safe (Decoder.Op F) Decoder.InRange m d) ∧
    (∀ (F : Format) (α : Type) (steps : List (Step Encoder α)) (stops : Bool) (e : Encoder),
      Step.CallsAll (MadeOf (Encoder.Op F)) steps → e.depth.max < UInt64.size →
      ∀ e' ∈ Step.states stops steps e, e'.InRange ∧
        ∀ (β : Type) (m : Encoding β), MadeOf (Encoder.Op F) m →
          Safe (Encoder.Op F) Encoder.InRange m e') ∧
    (∀ (F : Format) (a b c d : Nat) (s : Decoder), Decoder.checkKeys F a b c d s =
      match [(a, b), (c, d)].find? fun p => ¬ (p.1 ≤ p.2 ∧ p.2 ≤ s.offset) with
      | some p => .error (.invalidRange "map key" p.1 p.2 s.offset) s
      | none => ended (F.checkKeyOrder (s.cursor.input.extract a b) (s.cursor.input.extract c d)) s) ∧
    ∀ (n : FormatName) (a b c d : Nat) (s : Decoder),
      (∃ what start stop limit, Decoder.checkKeys n.format a b c d s =
        .error (.invalidRange what start stop limit) s) ↔
      ∃ p ∈ [(a, b), (c, d)], p.2 < p.1 ∨ s.offset < p.2 := by
  refine ⟨FormatName.madeOfReads, fun F hF => ⟨Decoder.madeOf_read hF, Decoder.madeOf_readVariant hF,
    Schema.madeOf_decode hF⟩, fun F α m => Decoder.madeOf_reading, Schema.madeOf_encode, ?_, ?_,
    Decoder.checkKeys_eq, Decoder.checkKeys_eq_invalidRange⟩
  · intro F α steps stops input b h hlen hb
    have hstart : (⟨.start input, b⟩ : Decoder).InRange := Decoder.inRange hlen (Nat.zero_le _) hb
    exact script_safe Decoder.onward_setBudget (fun _ _ => Decoder.keeps_op)
      (fun _ _ hde hd => hde.inRange hd) h stops hstart
  · intro F α steps stops e h hb
    have hmax : ∀ t t' : Encoder, t.SameMax t' → t.InRange → t'.InRange :=
      fun t t' htt ht => Encoder.inRange (htt ▸ ht.depth.word)
    exact (script_safe Encoder.sameMax_setBudget (fun _ _ => Encoder.keeps_op) hmax h stops
      (Encoder.inRange hb)).2

/-- More bytes than any input has, keys from places not yet reached, closing what is not open, and
entries out of order: each call fails or does nothing, and the next one is made. -/
theorem calls_in_range_hostile :
    let F := FormatName.canonical.format
    let reads : List (Step Decoder Unit) :=
      [.call do return (fun _ => ()) (← Decoder.reading (Cursor.take (2 ^ 63))),
        .nested true [.call do return (fun _ => ()) (← Schema.tree.decode F)],
        .call HasDepth.exit, .call (Decoder.checkKeys F 0 1 5 2)]
    let writes : List (Step Encoder Unit) :=
      [.call (Encoder.write F (.scalar .bool) true), .call (Encoder.sortEntries F [1, 0, 2]),
        .nested false [.call HasDepth.exit, .call (Encoder.sortEntries F [0, 1])],
        .call (modify Encoder.clear)]
    let d : Decoder := ⟨.start [1, 0, 7], .full 2⟩
    let e : Encoder := ⟨[9], .full 1⟩
    (F.MadeOfReads ∧ Step.CallsAll (MadeOf (Decoder.Op F)) reads ∧ d.cursor.input.length < UInt64.size ∧
      d.depth.max < UInt64.size ∧ (Step.states false reads d).Pairwise Decoder.Onward ∧
      ∀ d' ∈ Step.states false reads d, d'.InRange ∧
        Safe (Decoder.Op F) Decoder.InRange (Schema.drawing.decode F) d') ∧
    (Step.CallsAll (MadeOf (Encoder.Op F)) writes ∧ e.depth.max < UInt64.size ∧
      ∀ e' ∈ Step.states false writes e, e'.InRange) ∧
    Decoder.checkKeys F 0 1 5 2 ⟨⟨[1, 0, 7], 2⟩, .full 2⟩ =
      .error (.invalidRange "map key" 5 2 2) ⟨⟨[1, 0, 7], 2⟩, .full 2⟩ := by
  intro F reads writes d e
  obtain ⟨hreads, hdecode, hcursor, hencode, hdecoder, hencoder, hcheck, -⟩ := calls_in_range
  have hF : F.MadeOfReads := hreads .canonical
  have hr : Step.CallsAll (MadeOf (Decoder.Op F)) reads :=
    ⟨(hcursor F _ _ (Cursor.madeOf_take _)).map _, ⟨((hdecode F hF).2.2 .tree).map _, trivial⟩,
      .op .exit, .op (.check ..), trivial⟩
  have hw : Step.CallsAll (MadeOf (Encoder.Op F)) writes :=
    ⟨.op (.write ..), .op (.sort _), ⟨.op .exit, .op (.sort _), trivial⟩, .op .clear, trivial⟩
  obtain ⟨hpair, hall⟩ := hdecoder F Unit reads false [1, 0, 7] (.full 2) hr (by decide) (by decide)
  refine ⟨⟨hF, hr, by decide, by decide, hpair, fun d' hd => ?_⟩, ⟨hw, by decide, fun e' he => ?_⟩, ?_⟩
  · exact ⟨(hall d' hd).1, (hall d' hd).2 _ _ ((hdecode F hF).2.2 Schema.drawing)⟩
  · exact (hencoder F Unit writes false e hw (by decide) e' he).1
  · exact hcheck F 0 1 5 2 _

end WireCodec
