import WireCodec.Proofs.DepthNeed

/-!
# How runs can fail

A run fails for what is wrong with the value or the input, or for want of depth. The checks on
ranges never fail in it. An encoder notes where entries start and its buffer only grows, also
while inner maps are sorted at the end of it, so the starts ascend and lie within the buffer.
A decoder notes where keys start and end and never goes back, so the keys it holds against
each other have been read, one behind the other.
-/
namespace WireCodec

namespace Error

/-- The failures of encoding. -/
inductive OfEncoding : Error → Prop
  | length (k : Nat) : OfEncoding (.lengthOutOfRange k)
  | depth (max : Nat) : OfEncoding (.depthExceeded max)

/-- The failures of decoding, two of them of the canonical format only. -/
inductive OfDecoding (n : FormatName) : Error → Prop
  | truncated (offset needed remaining : Nat) : OfDecoding n (.truncated offset needed remaining)
  | value (what : String) (k : Nat) : OfDecoding n (.invalidValue what k)
  | text (offset : Nat) (source : Utf8Error) : OfDecoding n (.invalidUtf8 offset source)
  | char (offset : Nat) : OfDecoding n (.invalidChar offset)
  | length (k : Nat) : OfDecoding n (.lengthOutOfRange k)
  | depth (max : Nat) : OfDecoding n (.depthExceeded max)
  | malformed (h : n = .canonical) (what reason : String) : OfDecoding n (.malformed what reason)
  | order (h : n = .canonical) : OfDecoding n .nonCanonicalOrder

end Error

namespace Cursor

/-- Compares a run with itself and leaves out the failures of decoding. -/
def expected (n : FormatName) : Coupling Cursor where
  states := Eq
  excused x _ := x.OfDecoding n
  fails _ _ _ := False

theorem onDecoders_expected (n : FormatName) : (expected n).OnDecoders n where
  take k c c' h := by
    subst h
    simp only [take]
    split
    · exact .ok rfl
    · exact .excused (.truncated ..)
  refusal x c c' _ hx := by
    cases hx with
    | value what k => exact .inl (.value what k)
    | length k => exact .inl (.length k)
    | malformed h what reason => exact .inl (.malformed h what reason)
  char c c' e _ := .inl (.char c.offset)
  text c c' e x _ := .inl (.text c.offset x)
  order h c c' _ := .inl (.order h)
  depth k c c' _ := .inl (.depth k)
  bytes c c' bs bs' t t' h hr hr' he := by
    obtain rfl : c = c' := h
    have hlen : bs.length = bs'.length := Nat.add_left_cancel (congrArg offset he)
    exact (List.append_inj (hr.symm.trans hr') hlen).1

end Cursor

theorem Schema.decode_eq_error {n : FormatName} {s : Schema} {d d' : Decoder} {x : Error}
    (h : s.decode n.format d = .error x d') : x.OfDecoding n := by
  have ha := (Cursor.onDecoders_expected n).decode s d d ⟨rfl, rfl⟩
  rw [h] at ha
  obtain hx | ⟨_, _, -, -, hf⟩ := ha.of_error
  · exact hx
  · exact hf.elim

theorem Schema.encode_eq_error {n : FormatName} {s : Schema} {v : s.Val} {e e' : Encoder} {x : Error}
    (h : s.encode n.format v e = .error x e') : x.OfEncoding := by
  have hnil : s.encode n.format v (Encoder.frame.state e.buffer [] e.depth) = .error x e' := by
    rw [Encoder.state_nil]
    exact h
  obtain ⟨k, rfl⟩ | rfl := (settles_encode n s v []).of_error hnil
  · exact .length k
  · exact .depth e.depth.max

namespace Encoder

theorem mem_starts {o a : Nat} {cs : List Bytes} (h : a ∈ starts o cs) :
    o ≤ a ∧ a ≤ o + cs.flatten.length := by
  induction cs generalizing o with
  | nil => cases h
  | cons c cs ih =>
    rw [List.flatten_cons, List.length_append]
    rcases List.mem_cons.1 h with rfl | h
    · omega
    · have := ih h
      omega

theorem pairwise_starts (o : Nat) (cs : List Bytes) : (starts o cs).Pairwise (· ≤ ·) := by
  induction cs generalizing o with
  | nil => exact .nil
  | cons c cs ih =>
    refine .cons (fun a ha => ?_) (ih _)
    exact Nat.le_trans (Nat.le_add_right ..) (mem_starts ha).1

/-- The starts of entries in the order in which they were written, the buffer having grown to
where `e` stands. -/
structure Noted (os : List Nat) (e : Encoder) : Prop where
  ascending : os.Pairwise (· ≤ ·)
  within : ∀ o ∈ os, o ≤ e.offset

theorem noted_of_eachAt {α : Type} {f : α → Encoding Unit} {P : α → Prop} {r : α → Nat}
    {g : α → Bytes} {as : List α} (h : ∀ a ∈ as, Appends (f a) (P a) (r a) (g a)) {e e' : Encoder}
    {os : List Nat} (hrun : eachAt f as e = .ok os e') : Noted os e' := by
  obtain ⟨-, rfl, rfl⟩ := (eachAt_eq_ok h).1 hrun
  refine ⟨pairwise_starts _ _, fun o ho => ?_⟩
  rw [offset, List.length_append]
  exact (mem_starts ho).2

end Encoder

namespace Decoder

section Checks

variable {α β : Type}

/-- Reads entries as `eachEntry` does, with another check in the place of `checkKeys`. -/
def eachEntryBy (check : Nat → Nat → Nat → Nat → Decoding Unit) (key : Decoding α)
    (value : Decoding β) (before : Option (Nat × Nat)) : Nat → Decoding (List (α × β))
  | 0 => pure []
  | m + 1 => do
    let start := (← get).offset
    let k ← key
    let stop := (← get).offset
    before.elim (pure ()) fun p => check p.1 p.2 start stop
    let v ← value
    return (k, v) :: (← eachEntryBy check key value (some (start, stop)) m)

variable {n : FormatName} {check : Nat → Nat → Nat → Nat → Decoding Unit} {key : Decoding α}
  {value : Decoding β} {K : Grammar α} {V : Grammar β}

/-- The check is `checkKeys` for two keys that have been read, one behind the other, and may be
any other for ranges that are not so. -/
def ChecksKeys (n : FormatName) (check : Nat → Nat → Nat → Nat → Decoding Unit) : Prop :=
  ∀ a b c d e, a ≤ b → b ≤ c → c ≤ d → d ≤ e.offset → check a b c d e = checkKeys n.format a b c d e

/-- The loop puts the check to no other ranges, so what it says of them does not matter. -/
theorem eachEntryBy_eq (hc : ChecksKeys n check) (hk : Reads key K) (hv : Reads value V) (m : Nat)
    {before : Option (Nat × Nat)} {d : Decoder} (hb : ∀ p ∈ before, p.1 ≤ p.2 ∧ p.2 ≤ d.offset) :
    eachEntryBy check key value before m d = eachEntry n.format key value before m d := by
  induction m generalizing before d with
  | zero => rfl
  | succ m ih =>
    simp only [eachEntryBy, eachEntry, get_bind_run]
    refine bind_congr_run rfl fun k e hkd => ?_
    have hl := offset_le_of_ok hk hkd
    -- the key before has been read by `d`, so it is behind where the next one starts
    have hcheck : before.elim (pure ()) (fun p => check p.1 p.2 d.offset e.offset) e =
        checkAfter n.format before d.offset e.offset e := by
      cases before with
      | none => rfl
      | some p => exact hc _ _ _ _ e (hb p rfl).1 (hb p rfl).2 hl (Nat.le_refl _)
    simp only [get_bind_run]
    refine bind_congr_run hcheck fun _ e' he => ?_
    have hb₁ : ∀ p ∈ before, p.1 ≤ p.2 ∧ p.2 ≤ e.offset :=
      fun p hp => ⟨(hb p hp).1, Nat.le_trans (hb p hp).2 hl⟩
    rw [hcheck] at he
    obtain ⟨rfl, -⟩ := (checkAfter_eq_ok n hb₁ hl (Nat.le_refl _)).1 he
    refine bind_congr_run rfl fun v e' hve => ?_
    refine bind_congr_run (ih fun p hp => ?_) fun _ _ _ => rfl
    cases hp
    exact ⟨hl, offset_le_of_ok hv hve⟩

end Checks

end Decoder

open Encoder (eachAt Noted noted_of_eachAt)
open Decoder (eachEntry eachEntryBy eachEntryBy_eq ChecksKeys reads_empty)

namespace Schema

/-- Encoding fails for a length or for want of depth only, decoding for what is wrong with the
input or for want of depth only. The range checks find nothing to refuse: the starts noted while
entries are written ascend within the buffer, and keys are held against each other only when they
have been read, one behind the other, so that a check may say what it likes of other ranges. -/
theorem failures (n : FormatName) :
    (∀ (s : Schema) (v : s.Val) (e e' : Encoder) (x : Error),
      s.encode n.format v e = .error x e' → x.OfEncoding) ∧
    (∀ (s : Schema) (d d' : Decoder) (x : Error),
      s.decode n.format d = .error x d' → x.OfDecoding n) ∧
    (∀ (k t : Schema) (es : List (k.Val × t.Val)) (e e' : Encoder) (os : List Nat),
      eachAt (fun p => do
        k.encode n.format p.1
        t.encode n.format p.2) es e = .ok os e' → Noted os e') ∧
    (∀ (k : Schema) (ks : List k.Val) (e e' : Encoder) (os : List Nat),
      eachAt (k.encode n.format) ks e = .ok os e' → Noted os e') ∧
    ∀ check, ChecksKeys n check → ∀ (k : Schema) (m : Nat) (d : Decoder),
      (∀ t : Schema, eachEntryBy check (k.decode n.format) (t.decode n.format) none m d =
        eachEntry n.format (k.decode n.format) (t.decode n.format) none m d) ∧
      eachEntryBy check (k.decode n.format) (pure ()) none m d =
        eachEntry n.format (k.decode n.format) (pure ()) none m d := by
  refine ⟨fun s v e e' x => encode_eq_error, fun s d d' x => decode_eq_error, ?_, ?_, ?_⟩
  · intro k t es e e' os
    exact noted_of_eachAt fun p _ => (k.appends_encode n p.1).bind (t.appends_encode n p.2)
  · intro k ks e e' os
    exact noted_of_eachAt fun u _ => k.appends_encode n u
  · intro check hc k m d
    have hnone : ∀ p ∈ (none : Option (Nat × Nat)), p.1 ≤ p.2 ∧ p.2 ≤ d.offset := by simp
    exact ⟨fun t => eachEntryBy_eq hc (k.reads_decode n) (t.reads_decode n) m hnone,
      eachEntryBy_eq hc (k.reads_decode n) reads_empty m hnone⟩

/-- A container too many; two keys, themselves sets, in the wrong order; maps whose keys and values
are sorted where they stand; and a check that refuses all ranges but those of keys that have been
read. -/
theorem failures_nested :
    let word := scalar (.uint .w8)
    let check : Nat → Nat → Nat → Nat → Decoding Unit := fun a b c d e =>
      if a ≤ b ∧ b ≤ c ∧ c ≤ d ∧ d ≤ e.offset then
        Decoder.checkKeys FormatName.canonical.format a b c d e
      else .error (.invalidConfig "unread") e
    let sets := fun c b => (⟨⟨[9, 2, 1, 7, 1, 1, 5, 0], c⟩, b⟩ : Decoder)
    ((seq (seq bool)).encode FormatName.canonical.format [[true]] ⟨[9], .full 1⟩ =
        .error (.depthExceeded 1) ⟨[9, 1, 1], .full 1⟩ ∧ (Error.depthExceeded 1).OfEncoding) ∧
    ((map .unordered (set .unordered word) bool).decode FormatName.canonical.format (sets 1 (.full 2)) =
        .error .nonCanonicalOrder (sets 7 (.full 2)) ∧
      Error.nonCanonicalOrder.OfDecoding .canonical) ∧
    Noted [1, 9] ⟨[9, 2, 5, 7, 2, 1, 0, 2, 1, 0, 0], .full 1⟩ ∧
    Noted [1, 4] ⟨[9, 2, 5, 7, 0], .full 1⟩ ∧
    ChecksKeys .canonical check ∧
    eachEntryBy check ((set .unordered word).decode FormatName.canonical.format)
        (bool.decode FormatName.canonical.format) none 2 (sets 2 (.full 1)) =
      eachEntry FormatName.canonical.format ((set .unordered word).decode FormatName.canonical.format)
        (bool.decode FormatName.canonical.format) none 2 (sets 2 (.full 1)) := by
  intro word check sets
  obtain ⟨hencode, hdecode, hmap, hset, hkeys⟩ := failures .canonical
  have hdeep : (seq (seq bool)).encode FormatName.canonical.format [[true]] ⟨[9], .full 1⟩ =
      .error (.depthExceeded 1) ⟨[9, 1, 1], .full 1⟩ := by cbv
  have horder : (map .unordered (set .unordered word) bool).decode FormatName.canonical.format
      (sets 1 (.full 2)) = .error .nonCanonicalOrder (sets 7 (.full 2)) := by cbv
  have hcheck : ChecksKeys .canonical check := fun a b c d e hab hbc hcd hde =>
    if_pos ⟨hab, hbc, hcd, hde⟩
  refine ⟨⟨hdeep, hencode _ _ _ _ _ hdeep⟩, ⟨horder, hdecode _ _ _ _ horder⟩, ?_, ?_, hcheck, ?_⟩
  · exact hmap (set .unordered word) (map .unordered word bool)
      [([7#8, 5#8], [(2#8, true), (1#8, false)]), ([], [])] ⟨[9], .full 1⟩ _ _ (by cbv)
  · exact hset (set .unordered word) [[7#8, 5#8], []] ⟨[9], .full 1⟩ _ _ (by cbv)
  · exact (hkeys check hcheck (set .unordered word) 2 (sets 2 (.full 1))).1 bool

end Schema

end WireCodec
