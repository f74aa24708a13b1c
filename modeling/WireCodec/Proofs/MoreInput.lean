import WireCodec.Proofs.Coupling

/-!
# More input

A decoder does not see how much input there is, except where it runs out of it. So bytes
behind the end of the input change nothing about a run that did not run out, be it a success
or a failure; a run that ran out goes on as soon as what it asked for is there, and until then
fails in the same place. Hence every strict beginning of an encoding is found to be truncated,
and nothing else.
-/
namespace WireCodec

namespace Cursor

/-- Runs on the input `bs`, and on the same input with `t` behind it. -/
def more (bs t : Bytes) : Coupling Cursor where
  states c c' := ∃ o, o ≤ bs.length ∧ c = ⟨bs, o⟩ ∧ c' = ⟨bs ++ t, o⟩
  excused x c := ∃ k, x = .truncated c.offset k c.remaining ∧ c.remaining < k ∧
    k ≤ c.remaining + t.length
  fails x c y := (∃ k, x = .truncated c.offset k c.remaining ∧
      y = .truncated c.offset k (c.remaining + t.length) ∧ c.remaining + t.length < k) ∨
    (∀ o k r, x ≠ .truncated o k r) ∧ y = x

variable {bs t : Bytes}

theorem rest_more {o : Nat} (h : o ≤ bs.length) :
    (⟨bs ++ t, o⟩ : Cursor).rest = (⟨bs, o⟩ : Cursor).rest ++ t := List.drop_append_of_le_length h

theorem remaining_more {o : Nat} (h : o ≤ bs.length) :
    (⟨bs ++ t, o⟩ : Cursor).remaining = (⟨bs, o⟩ : Cursor).remaining + t.length := by
  rw [← length_rest, rest_more h, List.length_append, length_rest]

theorem more_take (k : Nat) : (more bs t).Coupled (take k) (take k) := by
  rintro _ _ ⟨o, ho, rfl, rfl⟩
  simp only [take, remaining_more ho]
  by_cases hk : k ≤ (⟨bs, o⟩ : Cursor).remaining
  · rw [if_pos hk, if_pos (Nat.le_add_right_of_le hk), rest_more ho,
      List.take_append_of_le_length (by rwa [length_rest])]
    refine .ok ⟨o + k, ?_, rfl, rfl⟩
    have hr : (⟨bs, o⟩ : Cursor).remaining = bs.length - o := rfl
    omega
  · rw [if_neg hk]
    by_cases hkt : k ≤ (⟨bs, o⟩ : Cursor).remaining + t.length
    · exact .excused ⟨k, rfl, Nat.lt_of_not_le hk, hkt⟩
    · rw [if_neg hkt]
      exact .error ⟨o, ho, rfl, rfl⟩ (.inl ⟨k, rfl, rfl, Nat.lt_of_not_le hkt⟩)

theorem more_stops {x : Error} (h : ∀ o k r, x ≠ .truncated o k r) (c : Cursor) :
    (more bs t).Stops x c x := .inr (.inr ⟨h, rfl⟩)

theorem onDecoders_more (n : FormatName) : (more bs t).OnDecoders n where
  take := more_take
  refusal x c c' _ hx := more_stops (by cases hx <;> simp) c
  char c c' e h := by
    obtain ⟨o, -, rfl, rfl⟩ := h
    exact more_stops (by simp) e
  text c c' e x h := by
    obtain ⟨o, -, rfl, rfl⟩ := h
    exact more_stops (by simp) e
  order _ c _ _ := more_stops (by simp) c
  depth k c _ _ := more_stops (by simp) c
  bytes c c' cs cs' u u' h hr hr' h' := by
    obtain ⟨o, ho, rfl, rfl⟩ := h
    obtain ⟨o', -, hc, hc'⟩ := h'
    have hl : cs.length = cs'.length := by
      have hoff := congrArg offset hc
      have hoff' := congrArg offset hc'
      simp only [advance] at hoff hoff'
      omega
    rw [rest_more ho, hr, List.append_assoc] at hr'
    exact List.append_inj_left hr' hl

end Cursor

namespace Schema

open Cursor

variable {n : FormatName} {s : Schema} {bs t : Bytes} {o : Nat} {b : DepthBudget}

theorem answers_more (n : FormatName) (s : Schema) (t : Bytes) (b : DepthBudget) (h : o ≤ bs.length) :
    (more bs t).onDecoder.Answers (s.decode n.format ⟨⟨bs, o⟩, b⟩)
      (s.decode n.format ⟨⟨bs ++ t, o⟩, b⟩) :=
  (onDecoders_more n).decode s _ _ ⟨⟨o, h, rfl, rfl⟩, rfl⟩

theorem states_more {d e : Decoder} (h : (more bs t).onDecoder.states d e) :
    e = ⟨⟨bs ++ t, d.offset⟩, d.depth⟩ := by
  obtain ⟨c, b⟩ := d
  obtain ⟨c', b'⟩ := e
  obtain ⟨⟨o, -, hc, hc'⟩, hb⟩ := h
  obtain rfl : c = ⟨bs, o⟩ := hc
  obtain rfl : c' = ⟨bs ++ t, o⟩ := hc'
  obtain rfl : b = b' := hb
  rfl

theorem decode_append_of_ok {v : s.Val} {d : Decoder} (h : o ≤ bs.length)
    (hd : s.decode n.format ⟨⟨bs, o⟩, b⟩ = .ok v d) (t : Bytes) :
    s.decode n.format ⟨⟨bs ++ t, o⟩, b⟩ = .ok v ⟨⟨bs ++ t, d.offset⟩, d.depth⟩ := by
  have ha := answers_more n s t b h
  rw [hd] at ha
  obtain ⟨e, he, hs⟩ := ha.of_ok
  rw [he, states_more hs]

theorem decode_append_of_error {x : Error} {d : Decoder} (h : o ≤ bs.length)
    (hx : ∀ o k r, x ≠ .truncated o k r) (hd : s.decode n.format ⟨⟨bs, o⟩, b⟩ = .error x d)
    (t : Bytes) :
    s.decode n.format ⟨⟨bs ++ t, o⟩, b⟩ = .error x ⟨⟨bs ++ t, d.offset⟩, d.depth⟩ := by
  have ha := answers_more n s t b h
  rw [hd] at ha
  obtain ⟨k, rfl, -⟩ | ⟨y, e, he, hs, hf⟩ := ha.of_error
  · exact absurd rfl (hx _ _ _)
  · obtain ⟨k, rfl, -⟩ | ⟨-, rfl⟩ := hf
    · exact absurd rfl (hx _ _ _)
    · rw [he, states_more hs]

/-- A decoder that runs out of input reports the place where it stands, and with `t` behind the
input it runs out there again, unless `t` has what was asked for. -/
theorem decode_append_of_truncated {p k r : Nat} {d : Decoder} (h : o ≤ bs.length)
    (hd : s.decode n.format ⟨⟨bs, o⟩, b⟩ = .error (.truncated p k r) d)
    (ht : r < k → r + t.length < k) :
    (p = d.offset ∧ p ≤ bs.length ∧ r = bs.length - p ∧ r < k) ∧
      s.decode n.format ⟨⟨bs ++ t, o⟩, b⟩ =
        .error (.truncated p k (r + t.length)) ⟨⟨bs ++ t, d.offset⟩, d.depth⟩ := by
  have ha := answers_more n s t b h
  rw [hd] at ha
  obtain ⟨k', hx, hlt, hle⟩ | ⟨y, e, he, hs, hf⟩ := ha.of_error
  · injection hx with _ hk hr
    omega
  · obtain ⟨k', hx, rfl, hlt⟩ | ⟨hx, -⟩ := hf
    · injection hx with hp hk hr
      rw [states_more hs] at he
      obtain ⟨⟨q, hq, hc, -⟩, -⟩ := hs
      subst hp hk hr
      refine ⟨⟨rfl, ?_, ?_, by omega⟩, he⟩
      · rwa [hc]
      · rw [hc]
        rfl
    · exact absurd rfl (hx p k r)

/-- A value that takes up any bytes ends within the input. -/
theorem offset_le_of_decode {v : s.Val} {d : Decoder}
    (hd : s.decode n.format ⟨⟨bs, o⟩, b⟩ = .ok v d) (h : o < d.offset) : d.offset ≤ bs.length := by
  obtain ⟨cs, u, hr, -, rfl⟩ := (reads_decode n s _ _ _).1 hd
  have hl := congrArg List.length hr
  rw [Cursor.length_rest, List.length_append] at hl
  change bs.length - o = _ at hl
  change o < o + cs.length at h
  change o + cs.length ≤ bs.length
  omega

/-- On less input than a value takes up, the decoder runs out of it. -/
theorem decode_take {v : s.Val} {d : Decoder} (hd : s.decode n.format ⟨⟨bs, o⟩, b⟩ = .ok v d) {k : Nat}
    (ho : o ≤ k) (hk : k < d.offset) :
    ∃ p m r e, s.decode n.format ⟨⟨bs.take k, o⟩, b⟩ = .error (.truncated p m r) e := by
  have hkl : k < bs.length :=
    Nat.lt_of_lt_of_le hk (offset_le_of_decode hd (Nat.lt_of_le_of_lt ho hk))
  have hlen : (bs.take k).length = k := List.length_take_of_le (Nat.le_of_lt hkl)
  have hol : o ≤ (bs.take k).length := ho.trans_eq hlen.symm
  have hsplit : bs.take k ++ bs.drop k = bs := List.take_append_drop k bs
  -- what was cut off can be put behind again, and must then change how the run ends
  cases hcut : s.decode n.format ⟨⟨bs.take k, o⟩, b⟩ with
  | ok w e =>
    have hfull := decode_append_of_ok hol hcut (bs.drop k)
    rw [hsplit, hd] at hfull
    injection hfull with _ hstate
    have hoff := congrArg Decoder.offset hstate
    change d.offset = e.offset at hoff
    have hle := offset_le_of_decode hcut (by omega)
    omega
  | error x e =>
    by_contra hnone
    have hx : ∀ p m r, x ≠ .truncated p m r := fun p m r hx => hnone ⟨p, m, r, e, by rw [hx]⟩
    have hfull := decode_append_of_error hol hx hcut (bs.drop k)
    rw [hsplit, hd] at hfull
    cases hfull

theorem ofBytes_append {c : Config} {v : s.Val} (hc : c.rejectTrailing)
    (hd : s.ofBytes n.format c bs = .ok v) (ht : t ≠ []) :
    s.ofBytes n.format c (bs ++ t) = .error (.trailingBytes t.length) := by
  obtain ⟨hconf, cs, u, rfl, hv, hu⟩ := ofBytes_eq_ok.1 hd
  rw [hu hc, List.append_nil]
  have hstart : Decoder.withConfig n.format (cs ++ t) c =
      .ok ⟨.start (cs ++ t), .full c.maxContainerDepth⟩ := Decoder.withConfig_eq_ok.2 ⟨hconf, rfl⟩
  have hread := (reads_decode n s ⟨.start (cs ++ t), .full c.maxContainerDepth⟩ v _).2
    ⟨cs, t, rfl, hv, rfl⟩
  have hrem : (⟨(Cursor.start (cs ++ t)).advance cs.length, .full c.maxContainerDepth⟩ :
      Decoder).remaining = t.length := by
    simp [Decoder.remaining, Cursor.remaining, Cursor.advance, Cursor.start]
  have hpos := List.length_pos_of_ne_nil ht
  simp only [ofBytes, hstart, bind, Except.bind, hread, hc, if_true, Decoder.finish, hrem, if_pos hpos]

/-- A decoder knows where its value ends. More input changes neither a value nor a failure
that is not for want of input; on less input than a value takes up it fails for want of input;
and a whole input with more behind it is refused for just that, or accepted where that is
allowed. -/
theorem decode_self_delimiting (n : FormatName) (s : Schema) :
    (∀ (bs t : Bytes) (o : Nat) (b : DepthBudget), o ≤ bs.length →
      (∀ v d, s.decode n.format ⟨⟨bs, o⟩, b⟩ = .ok v d →
        s.decode n.format ⟨⟨bs ++ t, o⟩, b⟩ = .ok v ⟨⟨bs ++ t, d.offset⟩, d.depth⟩) ∧
      ∀ x d, (∀ p m r, x ≠ .truncated p m r) → s.decode n.format ⟨⟨bs, o⟩, b⟩ = .error x d →
        s.decode n.format ⟨⟨bs ++ t, o⟩, b⟩ = .error x ⟨⟨bs ++ t, d.offset⟩, d.depth⟩) ∧
    (∀ (bs : Bytes) (o : Nat) (b : DepthBudget) (v : s.Val) (d : Decoder),
      s.decode n.format ⟨⟨bs, o⟩, b⟩ = .ok v d → ∀ k, o ≤ k → k < d.offset →
        ∃ p m r e, s.decode n.format ⟨⟨bs.take k, o⟩, b⟩ = .error (.truncated p m r) e) ∧
    ∀ (c : Config) (bs t : Bytes) (v : s.Val), c.rejectTrailing → t ≠ [] →
      s.ofBytes n.format c bs = .ok v →
        s.ofBytes n.format c (bs ++ t) = .error (.trailingBytes t.length) ∧
          s.ofBytes n.format c.allowTrailing (bs ++ t) = .ok v := by
  refine ⟨fun bs t o b ho => ⟨?_, ?_⟩, ?_, ?_⟩
  · exact fun v d hd => decode_append_of_ok ho hd t
  · exact fun x d hx hd => decode_append_of_error ho hx hd t
  · exact fun bs o b v d hd k => decode_take hd
  · intro c bs t v hc ht hd
    refine ⟨ofBytes_append hc hd ht, ?_⟩
    obtain ⟨hconf, cs, u, rfl, hv, hu⟩ := ofBytes_eq_ok.1 hd
    obtain rfl := hu hc
    rw [List.append_nil]
    exact ofBytes_eq_ok.2 ⟨hconf, cs, t, rfl, hv, by simp [Config.allowTrailing]⟩

theorem decode_self_delimiting_map :
    (map .ascending (scalar (.uint .w8)) (scalar .text)).decode FormatName.canonical.format
        ⟨⟨[9, 1, 5, 2, 97, 98] ++ [7], 1⟩, .full 1⟩ =
      .ok [(5#8, "ab")] ⟨⟨[9, 1, 5, 2, 97, 98] ++ [7], 6⟩, .full 1⟩ ∧
    (map .ascending (scalar (.uint .w8)) (scalar .unit)).decode FormatName.canonical.format
        ⟨⟨[9, 2, 5, 5] ++ [7], 1⟩, .full 1⟩ =
      .error .nonCanonicalOrder ⟨⟨[9, 2, 5, 5] ++ [7], 4⟩, .full 1⟩ ∧
    (∃ p m r e, (map .ascending (scalar (.uint .w8)) (scalar .text)).decode
      FormatName.canonical.format ⟨⟨[9, 1, 5, 2, 97], 1⟩, .full 1⟩ = .error (.truncated p m r) e) ∧
    (map .ascending (scalar (.uint .w8)) (scalar .text)).ofBytes FormatName.canonical.format .default
      ([1, 5, 2, 97, 98] ++ [7, 7]) = .error (.trailingBytes 2) := by
  refine ⟨?_, ?_, ?_, ?_⟩
  · exact ((decode_self_delimiting .canonical _).1 [9, 1, 5, 2, 97, 98] [7] 1 (.full 1) (by decide)).1
      _ ⟨⟨[9, 1, 5, 2, 97, 98], 6⟩, .full 1⟩ (by cbv)
  · exact ((decode_self_delimiting .canonical _).1 [9, 2, 5, 5] [7] 1 (.full 1) (by decide)).2
      _ ⟨⟨[9, 2, 5, 5], 4⟩, .full 1⟩ (by simp) (by cbv)
  · exact (decode_self_delimiting .canonical
      (map .ascending (scalar (.uint .w8)) (scalar .text))).2.1 [9, 1, 5, 2, 97, 98] 1 (.full 1)
      [(5#8, "ab")] ⟨⟨[9, 1, 5, 2, 97, 98], 6⟩, .full 1⟩ (by cbv) 5 (by decide) (by decide)
  · exact ((decode_self_delimiting .canonical
      (map .ascending (scalar (.uint .w8)) (scalar .text))).2.2 .default [1, 5, 2, 97, 98] [7, 7]
      [(5#8, "ab")] rfl (by simp) (by cbv)).1

/-- A report of missing input is true and exact. It names the place where the decoder stands, how
much is left from there and that more than this was asked for; and for as long as the input does
not grow by what is missing, the decoder stops there for the same want. -/
theorem decode_truncated_exactly (n : FormatName) (s : Schema) {bs : Bytes} {o : Nat}
    {b : DepthBudget} (ho : o ≤ bs.length) {p k r : Nat} {d : Decoder}
    (hd : s.decode n.format ⟨⟨bs, o⟩, b⟩ = .error (.truncated p k r) d) :
    (p = d.offset ∧ p ≤ bs.length ∧ r = bs.length - p ∧ r < k) ∧
      ∀ t : Bytes, t.length < k - r → s.decode n.format ⟨⟨bs ++ t, o⟩, b⟩ =
        .error (.truncated p k (r + t.length)) ⟨⟨bs ++ t, d.offset⟩, d.depth⟩ :=
  ⟨(decode_append_of_truncated (t := []) ho hd fun h => h).1,
    fun _ ht => (decode_append_of_truncated ho hd fun _ => by omega).2⟩

theorem decode_truncated_exactly_text :
    (map .ascending (scalar (.uint .w8)) (option (scalar .text))).decode FormatName.canonical.format
        ⟨⟨[9, 2, 5, 0, 6, 1, 4, 97, 98] ++ [99], 1⟩, .full 1⟩ =
      .error (.truncated 7 4 (2 + 1)) ⟨⟨[9, 2, 5, 0, 6, 1, 4, 97, 98] ++ [99], 7⟩, .full 1⟩ ∧
    (seq (scalar (.uint .w16))).decode FormatName.fast.format
        ⟨⟨[0, 0, 0] ++ [0, 0, 0, 0], 0⟩, .full 0⟩ =
      .error (.truncated 0 8 (3 + 4)) ⟨⟨[0, 0, 0] ++ [0, 0, 0, 0], 0⟩, .full 0⟩ := by
  constructor
  · exact (decode_truncated_exactly .canonical
      (map .ascending (scalar (.uint .w8)) (option (scalar .text)))
      (d := ⟨⟨[9, 2, 5, 0, 6, 1, 4, 97, 98], 7⟩, .full 1⟩) (by decide) (by cbv)).2 [99] (by decide)
  · exact (decode_truncated_exactly .fast (seq (scalar (.uint .w16)))
      (d := ⟨⟨[0, 0, 0], 0⟩, .full 0⟩) (by decide) (by cbv)).2 [0, 0, 0, 0] (by decide)

end Schema

end WireCodec
