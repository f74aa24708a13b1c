import WireCodec.Proofs.CharReading
import WireCodec.Proofs.Decoding

/-!
# A text at once and character by character

A text is held against UTF-8 as a whole, and a fault in it is told by the length of the sound part
and by the length of the fault. Reading the same bytes character by character comes to the same:
it gets to the end of a sound text, and in a broken one to the end of the sound part, where it
fails because bytes are missing if the fault has no length, and for the fault otherwise.
-/
namespace WireCodec

namespace Utf8

/-- A broken text is scalars up to the fault, which the bytes behind them have at their front. -/
theorem charsFrom_eq_error {index : Nat} {bs : Bytes} {e : Utf8Error}
    (h : charsFrom index 0 bs = .error e) :
    ∃ (cs : List Char) (t : Bytes), bs = cs.flatMap encodeChar ++ t ∧
      e.validUpTo = index + (cs.flatMap encodeChar).length ∧
      (e.errorLen = none ∧ Unfinished t ∨
        ∃ k ds b, e.errorLen = some k ∧ FirstBad t ds b ∧ k = max 1 ds.length) := by
  induction hn : bs.length using Nat.strong_induction_on generalizing index bs with
  | _ n ih =>
    cases hf : front bs with
    | scalar c k =>
      -- the scalar is read and the fault is behind it
      obtain ⟨-, t, rfl⟩ := front_eq_scalar hf
      rw [charsFrom_append] at h
      cases hr : charsFrom (index + (encodeChar c).length) 0 t with
      | ok ds => rw [hr] at h; cases h
      | error e' =>
        rw [hr] at h
        cases h
        have hpos := List.length_pos_iff.2 (encodeChar_ne_nil c)
        rw [List.length_append] at hn
        obtain ⟨cs, t', rfl, hup, hfault⟩ := ih t.length (by omega) hr rfl
        refine ⟨c :: cs, t', ?_, ?_, hfault⟩
        · rw [List.flatMap_cons, List.append_assoc]
        · rw [hup, List.flatMap_cons, List.length_append, Nat.add_assoc]
    | incomplete =>
      cases bs with
      | nil => cases h
      | cons b bs =>
        rw [charsFrom, hf] at h
        cases h
        exact ⟨[], b :: bs, rfl, rfl, .inl ⟨rfl, front_eq_incomplete.1 hf⟩⟩
    | invalid k =>
      cases bs with
      | nil => cases h
      | cons b bs =>
        rw [charsFrom, hf] at h
        cases h
        obtain ⟨ds, x, hx, hk⟩ := firstBad_of_invalid hf
        exact ⟨[], b :: bs, rfl, rfl, .inr ⟨k, ds, x, rfl, hx, hk⟩⟩

end Utf8

open Utf8 (encodeChar Begins Unfinished FirstBad)

namespace Decoder

variable (F : Format)

/-- So many characters, one after the other. -/
def chars (k : Nat) : Decoding (List Char) := each (read F (.scalar .char)) k

theorem reads_chars (k : Nat) :
    Reads (chars F k) fun _ cs bs => cs.length = k ∧ bs = cs.flatMap encodeChar := by
  have hchar : Reads (reading Scalar.readChar) fun _ c bs => True ∧ bs = encodeChar c := by
    refine reads_reading ?_ (Scalar.yields_readChar.mono fun c bs h => ⟨trivial, ?_⟩)
    · rintro c _ ⟨-, rfl⟩
      exact fun d t hd => Scalar.readChar_of_scalar ⟨t, hd.symm⟩
    · exact h.trans (Utf8.encodeChar_eq c).symm
  refine (reads_each hchar k).congr fun r cs bs => and_congr Iff.rfl ?_
  simp only [Grammar.all, forall₂_eq_map]
  constructor
  · intro hspec
    obtain ⟨_, ⟨-, rfl⟩, rfl⟩ := hspec
    exact List.flatMap_def.symm
  · rintro rfl
    exact ⟨_, ⟨fun _ _ => trivial, rfl⟩, List.flatMap_def⟩

/-- A text whose bytes have been found is these bytes held against UTF-8. -/
theorem read_text_eq {d d₁ : Decoder} {bs : Bytes}
    (hlen : read F .length d = .ok bs.length d₁) (hbs : bs <+: d₁.cursor.rest) :
    read F (.scalar .text) d = ended ((Utf8.decode bs).mapError (.invalidUtf8 d₁.offset))
      ⟨d₁.cursor.advance bs.length, d₁.depth⟩ := by
  obtain ⟨t, ht⟩ := hbs
  obtain ⟨hread, hdepth⟩ := reading_eq_ok.1 hlen
  have htake := Cursor.takes_take bs d₁.cursor t ht.symm
  have htext : Scalar.readText F d.cursor =
      ended ((Utf8.decode bs).mapError (.invalidUtf8 d₁.offset)) (d₁.cursor.advance bs.length) := by
    have hread' : F.readLength d.cursor = .ok bs.length d₁.cursor := hread
    rw [Scalar.readText, bind_of_ok hread', get_bind_run, bind_of_ok htake]
    cases Utf8.decode bs with
    | ok s => rfl
    | error e => rfl
  rw [hdepth]
  exact reading_of_ended d.depth htext

/-- Read character by character, the text is sound as far as `e` tells, and then fails: for want
of bytes if the fault has no length, and else for the fault, with the reader behind the first byte
that no scalar has there. That byte counts for the length of the fault only if it is the first. -/
structure StopsAt (bs : Bytes) (b : DepthBudget) (e : Utf8Error) : Prop where
  sound : ∃ k cs, chars F k ⟨.start bs, b⟩ = .ok cs ⟨⟨bs, e.validUpTo⟩, b⟩
  missing : e.errorLen = none → read F (.scalar .char) ⟨⟨bs, e.validUpTo⟩, b⟩ =
    .error (.truncated bs.length 1 0) ⟨⟨bs, bs.length⟩, b⟩
  fault : ∀ k, e.errorLen = some k → ∃ x, bs[e.validUpTo]? = some x ∧
    (¬ Begins [x] ∧ k = 1 ∧ read F (.scalar .char) ⟨⟨bs, e.validUpTo⟩, b⟩ =
        .error (.invalidChar e.validUpTo) ⟨⟨bs, e.validUpTo + 1⟩, b⟩ ∨
      Begins [x] ∧ read F (.scalar .char) ⟨⟨bs, e.validUpTo⟩, b⟩ =
        .error (.invalidChar e.validUpTo) ⟨⟨bs, e.validUpTo + k + 1⟩, b⟩)

theorem chars_of_flatMap (cs : List Char) (t : Bytes) (b : DepthBudget) :
    chars F cs.length ⟨.start (cs.flatMap encodeChar ++ t), b⟩ =
      .ok cs ⟨⟨cs.flatMap encodeChar ++ t, (cs.flatMap encodeChar).length⟩, b⟩ := by
  refine (reads_chars F _ _ _ _).2 ⟨_, t, rfl, ⟨rfl, rfl⟩, ?_⟩
  simp only [Cursor.advance, Cursor.start, Nat.zero_add]

theorem exists_chars_iff {bs : Bytes} {s : String} (b : DepthBudget) :
    (∃ k, chars F k ⟨.start bs, b⟩ = .ok s.toList ⟨⟨bs, bs.length⟩, b⟩) ↔
      Utf8.decode bs = .ok s := by
  rw [Utf8.decode_eq_ok]
  constructor
  · intro hspec
    obtain ⟨k, hk⟩ := hspec
    obtain ⟨cs, t, ht, ⟨-, rfl⟩, hd⟩ := (reads_chars F k _ _ _).1 hk
    -- the characters end where the input does, so nothing is left behind them
    have hbs : bs = s.toList.flatMap encodeChar ++ t := ht
    have hend := congrArg (fun d => d.cursor.offset) hd
    simp only [Cursor.advance, Cursor.start, Nat.zero_add] at hend
    rw [hbs, List.length_append] at hend
    rw [hbs, List.eq_nil_of_length_eq_zero (by omega : t.length = 0), List.append_nil]
    rfl
  · rintro rfl
    have hrun := chars_of_flatMap F s.toList [] b
    rw [List.append_nil] at hrun
    exact ⟨_, hrun⟩

theorem stopsAt_of_error {bs : Bytes} {e : Utf8Error} (h : Utf8.decode bs = .error e)
    (b : DepthBudget) : StopsAt F bs b e := by
  have hchars : Utf8.charsFrom 0 0 bs = .error e := by
    rw [Utf8.decode, Utf8.chars] at h
    cases hc : Utf8.charsFrom 0 0 bs with
    | ok cs => rw [hc] at h; cases h
    | error e' => rw [hc] at h; cases h; rfl
  obtain ⟨cs, t, rfl, hup, hfault⟩ := Utf8.charsFrom_eq_error hchars
  rw [Nat.zero_add] at hup
  have hrest : (⟨cs.flatMap encodeChar ++ t, e.validUpTo⟩ : Cursor).rest = t := by
    rw [Cursor.rest, hup, List.drop_left]
  have hhead : ∀ x u, t = x :: u → (cs.flatMap encodeChar ++ t)[e.validUpTo]? = some x := by
    rintro x u rfl
    rw [hup, List.getElem?_append_right (Nat.le_refl _), Nat.sub_self, List.getElem?_cons_zero]
  refine ⟨⟨cs.length, cs, by rw [hup]; exact chars_of_flatMap F cs t b⟩, fun hnone => ?_,
    fun k hk => ?_⟩
  · obtain ⟨-, hcut⟩ | ⟨k, ds, x, hsome, -⟩ := hfault
    · rw [← hrest] at hcut
      have hrun := Scalar.readChar_of_unfinished hcut
      rw [hrest, Cursor.advance, hup, ← List.length_append] at hrun
      rw [hup]
      exact reading_of_error b hrun
    · rw [hnone] at hsome
      cases hsome
  · obtain ⟨hnone, -⟩ | ⟨_, ds, x, hsome, hbad, rfl⟩ := hfault
    · rw [hk] at hnone
      cases hnone
    · rw [hk] at hsome
      cases hsome
      have hrun := reading_of_error b (Scalar.readChar_of_firstBad (hrest.symm ▸ hbad))
      obtain ⟨⟨u, hu⟩, hcut, hx⟩ := hbad
      cases ds with
      | nil => exact ⟨x, hhead x u hu.symm, .inl ⟨hx, rfl, hrun⟩⟩
      | cons y ds =>
        have hy : Unfinished ([y] ++ ds) := hcut
        refine ⟨y, hhead y _ hu.symm, .inr ⟨hy.of_append.begins, ?_⟩⟩
        rw [List.length_cons, Nat.max_eq_right (Nat.succ_pos _)]
        exact hrun

/-- A text is read just where its bytes, on their own and character by character, give its
characters and are used up. Otherwise it fails for the fault in it, and read character by character
it stops at that fault. -/
theorem text_char_by_char {d d₁ : Decoder} {bs : Bytes}
    (hlen : read F .length d = .ok bs.length d₁) (hbs : bs <+: d₁.cursor.rest) (b : DepthBudget) :
    (∀ (s : String) (d' : Decoder), read F (.scalar .text) d = .ok s d' ↔
      (∃ k, chars F k ⟨.start bs, b⟩ = .ok s.toList ⟨⟨bs, bs.length⟩, b⟩) ∧
        d' = ⟨d₁.cursor.advance bs.length, d₁.depth⟩) ∧
    ∀ x d', read F (.scalar .text) d = .error x d' → ∃ e, x = .invalidUtf8 d₁.offset e ∧
      d' = ⟨d₁.cursor.advance bs.length, d₁.depth⟩ ∧ StopsAt F bs b e := by
  rw [read_text_eq F hlen hbs]
  constructor
  · intro s d'
    rw [exists_chars_iff]
    cases hd : Utf8.decode bs with
    | ok s' =>
      change EStateM.Result.ok s' _ = .ok s d' ↔ _
      rw [EStateM.Result.ok.injEq, Except.ok.injEq, eq_comm (b := d')]
    | error e => exact iff_of_false (fun h => by cases h) fun h => by cases h.1
  · intro x d' h
    cases hd : Utf8.decode bs with
    | ok s =>
      rw [hd] at h
      cases h
    | error e =>
      rw [hd] at h
      cases h
      exact ⟨e, rfl, rfl, stopsAt_of_error F hd b⟩

/-- A sound text, and the same text with the start of an over-long scalar behind it. -/
theorem text_char_by_char_overlong :
    let F := FormatName.canonical.format
    let sound := fun k => (⟨⟨[9, 2, 0xC3, 0xA9, 7], k⟩, .full 1⟩ : Decoder)
    let broken := fun k => (⟨⟨[9, 4, 0xC3, 0xA9, 0xE0, 0x9F, 7], k⟩, .full 1⟩ : Decoder)
    (read F .length (sound 1) = .ok (2 : Nat) (sound 2) ∧ [0xC3, 0xA9] <+: (sound 2).cursor.rest ∧
      ∃ k, chars F k ⟨.start [0xC3, 0xA9], .full 3⟩ = .ok ['é'] ⟨⟨[0xC3, 0xA9], 2⟩, .full 3⟩) ∧
    read F .length (broken 1) = .ok (4 : Nat) (broken 2) ∧
      [0xC3, 0xA9, 0xE0, 0x9F] <+: (broken 2).cursor.rest ∧
      read F (.scalar .text) (broken 1) = .error (.invalidUtf8 2 ⟨2, some 1⟩) (broken 6) ∧
      StopsAt F [0xC3, 0xA9, 0xE0, 0x9F] (.full 3) ⟨2, some 1⟩ := by
  intro F sound broken
  have hsound : read F .length (sound 1) = .ok (2 : Nat) (sound 2) := by cbv
  have hfront : [0xC3, 0xA9] <+: (sound 2).cursor.rest := ⟨[7], rfl⟩
  have hbroken : read F .length (broken 1) = .ok (4 : Nat) (broken 2) := by cbv
  have hfront' : [0xC3, 0xA9, 0xE0, 0x9F] <+: (broken 2).cursor.rest := ⟨[7], rfl⟩
  have htext : read F (.scalar .text) (sound 1) = .ok "é" (sound 4) := by cbv
  have hfault : read F (.scalar .text) (broken 1) =
      .error (.invalidUtf8 2 ⟨2, some 1⟩) (broken 6) := by cbv
  refine ⟨⟨hsound, hfront, ?_⟩, hbroken, hfront', hfault, ?_⟩
  · exact (((text_char_by_char F hsound hfront (.full 3)).1 "é" (sound 4)).1 htext).1
  · obtain ⟨e, he, -, hstop⟩ := (text_char_by_char F hbroken hfront' (.full 3)).2 _ _ hfault
    cases he
    exact hstop

end Decoder

end WireCodec
