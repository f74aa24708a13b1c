import WireCodec.Encoder
import WireCodec.Proofs.Primitives

/-!
# Reading one character

Characters are read byte by byte, for as long as some scalar goes on from the bytes seen. Every
byte string is of one of three sorts: a scalar stands at its front, all of it is the start of a
scalar that goes on, or there is a first byte that no scalar has where it stands. The reader tells
the three apart and stops at the end of the scalar, at the end of the input, or behind that byte.
Nothing else ever happens to it: it never has two scalars in hand, and never four bytes without one.
-/
namespace WireCodec

namespace Utf8

/-- Some scalar's bytes start with these. -/
def Begins (bs : Bytes) : Prop := ∃ c, bs <+: encodeChar c

/-- Some scalar's bytes start with these and go on after them. -/
def Unfinished (bs : Bytes) : Prop := ∃ c, bs <+: encodeChar c ∧ bs ≠ encodeChar c

theorem Unfinished.begins {bs : Bytes} (h : Unfinished bs) : Begins bs := by
  obtain ⟨c, hc, -⟩ := h
  exact ⟨c, hc⟩

theorem Unfinished.of_append {bs cs : Bytes} (h : Unfinished (bs ++ cs)) : Unfinished bs := by
  obtain ⟨c, hc, hne⟩ := h
  refine ⟨c, (List.prefix_append bs cs).trans hc, fun he => ?_⟩
  -- the longer of the two would be no longer than the scalar
  have hlen := hc.length_le
  rw [← he, List.length_append] at hlen
  have hcs : cs = [] := List.eq_nil_of_length_eq_zero (by omega)
  exact hne (by rw [hcs, List.append_nil, he])

theorem Unfinished.length_lt {bs : Bytes} (h : Unfinished bs) : bs.length < 4 := by
  obtain ⟨c, hc, hne⟩ := h
  have hle := length_encodeChar_le c
  have hlt : bs.length ≠ (encodeChar c).length := fun hl => hne (hc.eq_of_length hl)
  have := hc.length_le
  omega

theorem unfinished_of_append_eq {bs cs : Bytes} {c : Char} (h : bs ++ cs = encodeChar c)
    (hcs : cs ≠ []) : Unfinished bs := by
  refine ⟨c, ⟨cs, h⟩, fun he => hcs ?_⟩
  rw [he] at h
  exact List.self_eq_append_right.1 h.symm

theorem exists_continues {low high : Nat} (h : low ≤ high ∧ high < 256) (n : Nat) :
    ∃ cs : Bytes, cs.length = n ∧ Continues low high cs := by
  induction n generalizing low high with
  | zero => exact ⟨[], rfl, trivial⟩
  | succ n ih =>
    obtain ⟨cs, hlen, hcs⟩ := @ih 0x80 0xBF (by decide)
    refine ⟨UInt8.ofNat low :: cs, congrArg (· + 1) hlen, continues_cons.2 ⟨?_, hcs⟩⟩
    rw [toNat_byte (by omega)]
    omega

theorem Continues.complete {low high : Nat} {bs : Bytes} (h : Continues low high bs)
    (hb : low ≤ high ∧ high < 256) (n : Nat) :
    ∃ cs : Bytes, cs.length = n ∧ Continues low high (bs ++ cs) := by
  induction bs generalizing low high with
  | nil => exact exists_continues hb n
  | cons b bs ih =>
    rw [continues_cons] at h
    obtain ⟨cs, hlen, hcs⟩ := ih h.2 (by decide)
    exact ⟨cs, hlen, continues_cons.2 ⟨h.1, hcs⟩⟩

theorem lead_bounds {b : UInt8} {l : Lead} (h : lead? b = some l) :
    l.low ≤ l.high ∧ l.high < 256 := by
  simp only [lead?] at h
  split at h
  · cases Option.some.inj h
    simp
  split at h
  · cases h
  split at h
  · cases Option.some.inj h
    simp
  split at h
  · cases Option.some.inj h
    simp only
    split <;> split <;> omega
  split at h
  · cases Option.some.inj h
    simp only
    split <;> split <;> omega
  · cases h

theorem continued_eq_incomplete {bs : Bytes} {value seen tail low high : Nat}
    (h : continued value seen tail low high bs = .incomplete) :
    bs.length < tail ∧ Continues low high bs := by
  induction tail generalizing bs value seen low high with
  | zero => cases h
  | succ tail ih =>
    cases bs with
    | nil => exact ⟨Nat.succ_pos tail, trivial⟩
    | cons b bs =>
      simp only [continued] at h
      split at h
      · rename_i hb
        obtain ⟨hlen, hbs⟩ := ih h
        exact ⟨Nat.succ_lt_succ hlen, continues_cons.2 ⟨hb, hbs⟩⟩
      · cases h

/-- Bytes that are neither a scalar nor refused can be completed to one. -/
theorem front_eq_incomplete {bs : Bytes} : front bs = .incomplete ↔ Unfinished bs := by
  constructor
  · intro h
    cases bs with
    | nil => exact unfinished_of_append_eq (List.nil_append _) (encodeChar_ne_nil 'a')
    | cons b bs =>
      rw [front] at h
      cases hl : lead? b with
      | none => rw [hl] at h; cases h
      | some l =>
        rw [hl] at h
        obtain ⟨hlen, hbs⟩ := continued_eq_incomplete h
        obtain ⟨cs, hcs, hcont⟩ := hbs.complete (lead_bounds hl) (l.tail - bs.length)
        have htail : (bs ++ cs).length = l.tail := by
          rw [List.length_append, hcs]
          omega
        have hne : cs ≠ [] := by
          rintro rfl
          rw [List.length_nil] at hcs
          omega
        exact unfinished_of_append_eq (encodeChar_gather hl htail hcont).symm hne
  · intro h
    obtain ⟨c, ⟨cs, hcs⟩, hne⟩ := h
    refine front_of_prefix hcs ?_
    rintro rfl
    exact hne (by rw [← hcs, List.append_nil])

theorem continued_eq_invalid {bs : Bytes} {value seen tail low high k : Nat}
    (h : continued value seen tail low high bs = .invalid k) :
    ∃ cs b t, bs = cs ++ b :: t ∧ k = seen + cs.length ∧
      continued value seen tail low high cs = .incomplete ∧
      continued value seen tail low high (cs ++ [b]) = .invalid k := by
  induction tail generalizing bs value seen low high with
  | zero => cases h
  | succ tail ih =>
    cases bs with
    | nil => cases h
    | cons b bs =>
      simp only [continued] at h
      split at h
      · rename_i hb
        obtain ⟨cs, x, t, rfl, rfl, hcs, hx⟩ := ih h
        refine ⟨b :: cs, x, t, rfl, ?_, ?_, ?_⟩
        · rw [List.length_cons]
          omega
        · rw [continued, if_pos hb, hcs]
        · rw [List.cons_append, continued, if_pos hb, hx]
      · rename_i hb
        cases h
        refine ⟨[], b, bs, rfl, rfl, rfl, ?_⟩
        rw [List.nil_append, continued, if_neg hb]

/-- What is refused is refused for one byte, and the length told with it counts the bytes before
that one, or the byte itself if there are none. -/
theorem front_eq_invalid {bs : Bytes} {k : Nat} (h : front bs = .invalid k) :
    ∃ cs b t, bs = cs ++ b :: t ∧ k = max 1 cs.length ∧ front cs = .incomplete ∧
      front (cs ++ [b]) = .invalid k := by
  cases bs with
  | nil => cases h
  | cons b bs =>
    rw [front] at h
    cases hl : lead? b with
    | none =>
      rw [hl] at h
      cases h
      refine ⟨[], b, bs, rfl, rfl, rfl, ?_⟩
      rw [List.nil_append, front, hl]
    | some l =>
      rw [hl] at h
      obtain ⟨cs, x, t, rfl, rfl, hcs, hx⟩ := continued_eq_invalid h
      refine ⟨b :: cs, x, t, rfl, ?_, ?_, ?_⟩
      · rw [List.length_cons]
        omega
      · rw [front, hl]
        exact hcs
      · rw [List.cons_append, front, hl]
        exact hx

theorem not_begins_of_invalid {bs : Bytes} {k : Nat} (h : front bs = .invalid k) : ¬ Begins bs := by
  intro hbs
  obtain ⟨c, hc⟩ := hbs
  by_cases he : bs = encodeChar c
  · have hf := front_encodeChar c []
    rw [List.append_nil, ← he, h] at hf
    cases hf
  · rw [front_eq_incomplete.2 ⟨c, hc, he⟩] at h
    cases h

/-- `b` stands behind `cs` and is the first byte of the input that no scalar has where it
stands. -/
structure FirstBad (bs cs : Bytes) (b : UInt8) : Prop where
  stands : cs ++ [b] <+: bs
  sound : Unfinished cs
  bad : ¬ Begins (cs ++ [b])

theorem firstBad_of_invalid {bs : Bytes} {k : Nat} (h : front bs = .invalid k) :
    ∃ cs b, FirstBad bs cs b ∧ k = max 1 cs.length := by
  obtain ⟨cs, b, t, rfl, hk, hcs, hb⟩ := front_eq_invalid h
  refine ⟨cs, b, ⟨⟨t, ?_⟩, front_eq_incomplete.1 hcs, not_begins_of_invalid hb⟩, hk⟩
  rw [List.append_assoc, List.singleton_append]

/-- A scalar stands in front, or all of the bytes are the start of one, or one of them is bad. -/
theorem three_sorts (bs : Bytes) :
    (∃ c, encodeChar c <+: bs) ∨ Unfinished bs ∨ ∃ cs b, FirstBad bs cs b := by
  cases h : front bs with
  | scalar c k =>
    obtain ⟨-, t, ht⟩ := front_eq_scalar h
    exact .inl ⟨c, t, ht.symm⟩
  | incomplete => exact .inr (.inl (front_eq_incomplete.1 h))
  | invalid k =>
    obtain ⟨cs, b, hb, -⟩ := firstBad_of_invalid h
    exact .inr (.inr ⟨cs, b, hb⟩)

theorem chars_of_incomplete {bs : Bytes} (h : front bs = .incomplete) (hbs : bs ≠ []) :
    chars bs = .error ⟨0, none⟩ := by
  obtain ⟨b, bs, rfl⟩ := List.exists_cons_of_ne_nil hbs
  rw [chars, charsFrom, h]

theorem chars_of_invalid {bs : Bytes} {k : Nat} (h : front bs = .invalid k) :
    chars bs = .error ⟨0, some k⟩ := by
  cases bs with
  | nil => cases h
  | cons b bs => rw [chars, charsFrom, h]

end Utf8

open Utf8 (encodeChar Begins Unfinished FirstBad)

namespace Scalar

/-- Reads a character as `readCharFrom` does, with other answers to several scalars at once and to
bytes that have come to an end without one. -/
def readCharBy (several exhausted : Reading Char) (start : Nat) : Nat → Bytes → Reading Char
  | 0, _ => exhausted
  | n + 1, seen => do
    let seen := seen ++ [← Cursor.byte]
    match Utf8.chars seen with
    | .ok [c] => pure c
    | .ok _ => several
    | .error e =>
      if e.errorLen.isSome then throw (.invalidChar start)
      else readCharBy several exhausted start n seen

theorem readCharFrom_eq (start n : Nat) (seen : Bytes) : readCharFrom start n seen =
    readCharBy (throw (.invalidChar start)) (throw (.invalidChar start)) start n seen := by
  induction n generalizing seen with
  | zero => rfl
  | succ n ih =>
    rw [readCharFrom, readCharBy]
    refine congrArg _ (funext fun b => ?_)
    dsimp only
    cases Utf8.chars (seen ++ [b]) with
    | error e =>
      exact congrArg (fun m : Reading Char => if e.errorLen.isSome then throw (.invalidChar start)
        else m) (ih (seen ++ [b]))
    | ok cs => rcases cs with _ | ⟨ch, _ | _⟩ <;> rfl

section Loop

variable (several exhausted : Reading Char) {start n : Nat} {seen : Bytes} {c : Cursor}

theorem readCharBy_succ {b : UInt8} {t : Bytes} (hc : c.rest = b :: t) :
    readCharBy several exhausted start (n + 1) seen c =
      (match Utf8.chars (seen ++ [b]) with
        | .ok [ch] => pure ch
        | .ok _ => several
        | .error e =>
          if e.errorLen.isSome then throw (.invalidChar start)
          else readCharBy several exhausted start n (seen ++ [b]) : Reading Char) (c.advance 1) := by
  have hb : Cursor.byte c = .ok b (c.advance 1) := by simp only [Cursor.byte, hc]
  rw [readCharBy, bind_of_ok hb]

/-- While a scalar goes on from the bytes seen, one byte after the other joins them. -/
theorem readCharBy_unfinished {bs t : Bytes} (h : Unfinished (seen ++ bs)) (hc : c.rest = bs ++ t) :
    readCharBy several exhausted start (bs.length + n) seen c =
      readCharBy several exhausted start n (seen ++ bs) (c.advance bs.length) := by
  induction bs generalizing seen c with
  | nil => rw [List.append_nil, List.length_nil, Nat.zero_add]; rfl
  | cons b bs ih =>
    rw [List.append_cons] at h
    have hchars := Utf8.chars_of_incomplete (Utf8.front_eq_incomplete.2 h.of_append) (by simp)
    have hrest : (c.advance 1).rest = bs ++ t := by rw [Cursor.rest_advance, hc]; rfl
    rw [List.length_cons, Nat.add_right_comm, readCharBy_succ several exhausted hc, hchars]
    simp only [Option.isSome_none, Bool.false_eq_true, if_false]
    rw [ih h hrest, Cursor.advance_advance, Nat.add_comm 1, List.append_assoc,
      List.singleton_append]

/-- With an unfinished scalar in hand there is at least one more byte to read. -/
theorem readCharBy_start (start : Nat) {bs t : Bytes} (h : Unfinished bs) (hc : c.rest = bs ++ t) :
    ∃ n, readCharBy several exhausted start 4 [] c =
      readCharBy several exhausted start (n + 1) bs (c.advance bs.length) := by
  refine ⟨3 - bs.length, ?_⟩
  have hlen := h.length_lt
  have hrun : readCharBy several exhausted start (bs.length + (3 - bs.length + 1)) [] c = _ :=
    readCharBy_unfinished several exhausted h hc
  rwa [List.nil_append, show bs.length + (3 - bs.length + 1) = 4 by omega] at hrun

theorem readCharBy_of_scalar {ch : Char} (h : encodeChar ch <+: c.rest) :
    readCharBy several exhausted start 4 [] c = .ok ch (c.advance (encodeChar ch).length) := by
  obtain ⟨t, ht⟩ := h
  obtain ⟨bs, b, hbs⟩ := (List.eq_nil_or_concat' (encodeChar ch)).resolve_left
    (Utf8.encodeChar_ne_nil ch)
  have hc : c.rest = bs ++ b :: t := by rw [← ht, hbs, List.append_assoc, List.singleton_append]
  have hchars : Utf8.chars (bs ++ [b]) = .ok [ch] := by
    rw [Utf8.chars_eq_ok, ← hbs, List.flatMap_singleton]
  have hbegin := Utf8.unfinished_of_append_eq hbs.symm (List.cons_ne_nil b [])
  obtain ⟨n, hrun⟩ := readCharBy_start several exhausted start hbegin hc
  rw [hrun, readCharBy_succ several exhausted (Cursor.rest_advance_append hc), hchars,
    Cursor.advance_advance, hbs, List.length_append]
  rfl

theorem readCharBy_of_unfinished (h : Unfinished c.rest) :
    readCharBy several exhausted start 4 [] c =
      .error (.truncated (c.offset + c.rest.length) 1 0) (c.advance c.rest.length) := by
  obtain ⟨n, hrun⟩ := readCharBy_start several exhausted start h
    (List.append_nil c.rest).symm
  have hbyte : Cursor.byte (c.advance c.rest.length) =
      .error (.truncated (c.offset + c.rest.length) 1 0) (c.advance c.rest.length) := by
    simp only [Cursor.byte, Cursor.rest_advance, List.drop_length, Cursor.offset_advance]
  rw [hrun, readCharBy, bind_of_error hbyte]

theorem readCharBy_of_firstBad {cs : Bytes} {b : UInt8} (h : FirstBad c.rest cs b) :
    readCharBy several exhausted start 4 [] c =
      .error (.invalidChar start) (c.advance (cs.length + 1)) := by
  obtain ⟨⟨t, ht⟩, hcs, hbad⟩ := h
  have hc : c.rest = cs ++ b :: t := by rw [← ht, List.append_assoc, List.singleton_append]
  obtain ⟨n, hrun⟩ := readCharBy_start several exhausted start hcs hc
  rw [hrun, readCharBy_succ several exhausted (Cursor.rest_advance_append hc),
    Cursor.advance_advance]
  cases hf : Utf8.front (cs ++ [b]) with
  | scalar ch k =>
    -- the scalar would be all of the bytes, or end before the last of them
    obtain ⟨-, t', ht'⟩ := Utf8.front_eq_scalar hf
    have hpre : encodeChar ch <+: cs ++ [b] := ⟨t', ht'.symm⟩
    obtain he | ⟨u, hu⟩ := List.prefix_concat_iff.1 hpre
    · exact absurd ⟨ch, by rw [he]⟩ hbad
    · have hcut := Utf8.front_eq_incomplete.2 hcs
      rw [← hu, Utf8.front_encodeChar] at hcut
      cases hcut
  | incomplete => exact absurd (Utf8.front_eq_incomplete.1 hf).begins hbad
  | invalid k =>
    rw [Utf8.chars_of_invalid hf]
    rfl

end Loop

/-- What the two answers are makes no difference to a character read from the start. -/
theorem readChar_eq (several exhausted : Reading Char) (c : Cursor) :
    readChar c = readCharBy several exhausted c.offset 4 [] c := by
  change readCharFrom c.offset 4 [] c = _
  rw [readCharFrom_eq]
  obtain ⟨ch, h⟩ | h | ⟨cs, b, h⟩ := Utf8.three_sorts c.rest
  · rw [readCharBy_of_scalar _ _ h, readCharBy_of_scalar _ _ h]
  · rw [readCharBy_of_unfinished _ _ h, readCharBy_of_unfinished _ _ h]
  · rw [readCharBy_of_firstBad _ _ h, readCharBy_of_firstBad _ _ h]

section Cases

variable {c : Cursor}

theorem readChar_of_scalar {ch : Char} (h : encodeChar ch <+: c.rest) :
    readChar c = .ok ch (c.advance (encodeChar ch).length) := by
  rw [readChar_eq (pure ch) (pure ch), readCharBy_of_scalar _ _ h]

theorem readChar_of_unfinished (h : Unfinished c.rest) : readChar c =
    .error (.truncated (c.offset + c.rest.length) 1 0) (c.advance c.rest.length) := by
  rw [readChar_eq (pure 'a') (pure 'a'), readCharBy_of_unfinished _ _ h]

theorem readChar_of_firstBad {cs : Bytes} {b : UInt8} (h : FirstBad c.rest cs b) :
    readChar c = .error (.invalidChar c.offset) (c.advance (cs.length + 1)) := by
  rw [readChar_eq (pure 'a') (pure 'a'), readCharBy_of_firstBad _ _ h]

end Cases

/-- A scalar has one to four bytes. Any bytes at all are of one of three sorts: a scalar stands at
their front and is read, they are the start of one and more is needed, or they are refused with the
reader just behind the first byte that no scalar has there. Two scalars at once, and four bytes
without one, do not come up: what would be answered to them is of no account. -/
theorem readChar_three_ways :
    (∀ (F : Format) (ch : Char) (e : Encoder),
      Encoder.write F (.scalar .char) ch e = .ok () ⟨e.buffer ++ encodeChar ch, e.depth⟩ ∧
      1 ≤ (encodeChar ch).length ∧ (encodeChar ch).length ≤ 4) ∧
    ∀ c : Cursor,
      (∀ ch c', readChar c = .ok ch c' ↔
        encodeChar ch <+: c.rest ∧ c' = c.advance (encodeChar ch).length) ∧
      (∀ c', readChar c = .error (.truncated (c.offset + c.rest.length) 1 0) c' ↔
        Unfinished c.rest ∧ c' = c.advance c.rest.length) ∧
      ((∀ ch, ¬ encodeChar ch <+: c.rest) → ¬ Unfinished c.rest →
        ∃ cs b, FirstBad c.rest cs b ∧ cs.length < 4 ∧
          readChar c = .error (.invalidChar c.offset) (c.advance (cs.length + 1))) ∧
      ∀ several exhausted, readCharBy several exhausted c.offset 4 [] c = readChar c := by
  refine ⟨fun F ch e => ⟨rfl, List.length_pos_iff.2 (Utf8.encodeChar_ne_nil ch),
    Utf8.length_encodeChar_le ch⟩, fun c => ⟨fun ch c' => ⟨fun h => ?_, fun h => ?_⟩,
    fun c' => ⟨fun h => ?_, fun h => ?_⟩, fun hscalar hcut => ?_,
    fun several exhausted => (readChar_eq several exhausted c).symm⟩⟩
  · obtain ⟨bs, t, hr, rfl, rfl⟩ := yields_readChar c ch c' h
    rw [Utf8.encodeChar_eq]
    exact ⟨⟨t, hr.symm⟩, rfl⟩
  · rw [readChar_of_scalar h.1, h.2]
  · obtain ⟨ch, hch⟩ | hcut | ⟨cs, b, hbad⟩ := Utf8.three_sorts c.rest
    · rw [readChar_of_scalar hch] at h
      cases h
    · rw [readChar_of_unfinished hcut] at h
      cases h
      exact ⟨hcut, rfl⟩
    · rw [readChar_of_firstBad hbad] at h
      cases h
  · rw [readChar_of_unfinished h.1, h.2]
  · obtain ⟨ch, hch⟩ | h | ⟨cs, b, hbad⟩ := Utf8.three_sorts c.rest
    · exact absurd hch (hscalar ch)
    · exact absurd h hcut
    · exact ⟨cs, b, hbad, hbad.sound.length_lt, readChar_of_firstBad hbad⟩

/-- A surrogate: no scalar's bytes start with the first two of these. -/
theorem readChar_three_ways_surrogate :
    (∀ ch, ¬ encodeChar ch <+: [0xED, 0xA0, 0x80]) ∧ ¬ Unfinished [0xED, 0xA0, 0x80] ∧
    ∃ cs b, FirstBad [0xED, 0xA0, 0x80] cs b ∧
      readChar ⟨[0x41, 0xED, 0xA0, 0x80], 1⟩ =
        .error (.invalidChar 1) ⟨[0x41, 0xED, 0xA0, 0x80], 1 + (cs.length + 1)⟩ := by
  have hf : Utf8.front [0xED, 0xA0, 0x80] = .invalid 1 := by decide
  have hscalar : ∀ ch, ¬ encodeChar ch <+: [0xED, 0xA0, 0x80] := by
    rintro ch ⟨t, ht⟩
    rw [← ht, Utf8.front_encodeChar] at hf
    cases hf
  have hcut : ¬ Unfinished [0xED, 0xA0, 0x80] := fun h => Utf8.not_begins_of_invalid hf h.begins
  obtain ⟨cs, b, hbad, -, hrun⟩ :=
    (readChar_three_ways.2 ⟨[0x41, 0xED, 0xA0, 0x80], 1⟩).2.2.1 hscalar hcut
  exact ⟨hscalar, hcut, cs, b, hbad, hrun⟩

end Scalar

end WireCodec
