import WireCodec.Proofs.DepthNeed
import WireCodec.Proofs.Iteration
import WireCodec.Proofs.RoundTrip

/-!
# The depth limit is exact

A value is written just where its depth fits the depth that is left, and its bytes are read
just where it does. What there is to say about too little depth follows from the threshold a
run has: the run succeeds with more, so there is no other way for it to fail.
-/
namespace WireCodec

open Grammar

namespace Schema

variable {n : FormatName}

/-- A shape opens one container, whichever kind it is of. -/
theorem depth_shape (v : shape.Val) : shape.depth v = 1 := by
  obtain ⟨i, x⟩ := v
  fin_cases i
  · rfl
  · rfl
  · obtain ⟨name, weight⟩ := x
    cases weight <;> rfl

theorem depth_le_map {k t : Schema} {it : Iteration} {r : Nat} {bs : Bytes}
    (ihk : ∀ q x cs, k.Spells n q x cs → k.depth x ≤ q)
    (iht : ∀ q x cs, t.Spells n q x cs → t.depth x ≤ q) {es : List (k.Val × t.Val)}
    (h : (map it k t).Spells n r es bs) : (map it k t).depth es ≤ r := by
  obtain ⟨fs, rfl, -, _, ⟨q, rfl, cs, hcs, -, -⟩, -⟩ := h
  have hone : ∀ e ∈ fs, max (k.depth e.1) (t.depth e.2) ≤ q := forall_of_forall₂ hcs
    fun e c he => Nat.max_le.2 ⟨ihk q e.1 c.1 he.1, iht q e.2 c.2 he.2⟩
  have hq := deepest_map_le.2 fun e he =>
    hone e (Entries.mem_of_mem_ofList (totalOrder_compare k) he)
  exact (Nat.add_comm 1 _).trans_le (Nat.succ_le_succ hq)

/-- A value that stands on the wire fits the depth it is read with. -/
theorem depth_le_of_spells {s : Schema} {r : Nat} {v : s.Val} {bs : Bytes}
    (h : s.Spells n r v bs) : s.depth v ≤ r := by
  induction s generalizing r bs with
  | scalar s => exact Nat.zero_le r
  | option s ih =>
    cases v with
    | none => exact Nat.zero_le r
    | some x =>
      obtain ⟨cs, hx, -⟩ := h
      exact ih hx
  | boxed s ih => exact ih (v := v) h
  | pair a b iha ihb =>
    obtain ⟨cs, ds, hx, hy, -⟩ := h
    exact Nat.max_le.2 ⟨iha hx, ihb hy⟩
  | seq s ih =>
    obtain ⟨-, _, ⟨q, rfl, css, hcss, -⟩, -⟩ := h
    have hq := deepest_map_le.2 (forall_of_forall₂ hcss fun x cs hx => ih hx)
    exact (Nat.add_comm 1 _).trans_le (Nat.succ_le_succ hq)
  | map it k t ihk iht => exact depth_le_map (fun q x cs => ihk) (fun q x cs => iht) h
  | set it k ih =>
    obtain ⟨es, rfl, hes⟩ := spells_set.1 h
    rw [depth_set]
    exact depth_le_map (t := scalar .unit) (fun q x cs => ih) (fun q x cs _ => Nat.zero_le q) hes
  | framed s ih =>
    obtain ⟨q, rfl, hv⟩ := h
    exact (Nat.add_comm 1 _).trans_le (Nat.succ_le_succ (ih hv))
  | choice count alt ih =>
    obtain ⟨-, cs, hx, -⟩ := h
    exact ih v.1 hx
  | tree => exact h.2.1

/-- Writing takes as much depth as the value has, and no less. -/
theorem encode_depth {s : Schema} {v : s.Val} (hm : s.Short n.format.maxLength v) (e : Encoder) :
    (s.depth v ≤ e.depth.remaining →
      s.encode n.format v e = .ok () ⟨e.buffer ++ s.wire n v, e.depth⟩) ∧
    (e.depth.remaining < s.depth v →
      ∃ e', s.encode n.format v e = .error (.depthExceeded e.depth.max) e') := by
  have happ := appends_encode n s v
  refine ⟨fun hr => (happ e _).2 ⟨⟨hm, hr⟩, rfl⟩, fun hr => ?_⟩
  have hfull := (happ (Encoder.frame.state e.buffer [] (.full (s.depth v))) _).2
    ⟨⟨hm, Nat.le_refl _⟩, rfl⟩
  obtain ⟨need, q, hl, -, -, hrun⟩ := (settles_encode n s v []).of_ok hfull
  have hnil : Encoder.frame.state e.buffer [] e.depth = e := Encoder.state_nil e.buffer e.depth
  rw [← hnil]
  rcases Nat.lt_or_ge e.depth.remaining need with hlt | hge
  · obtain ⟨q', hq'⟩ := hl e.depth hlt
    exact ⟨_, hq' e.buffer⟩
  · obtain ⟨⟨-, hle⟩, -⟩ := (happ _ _).1 (hrun e.buffer e.depth hge)
    exact absurd hle (Nat.not_le_of_lt hr)

/-- Reading a value that was written takes as much depth as writing it. -/
theorem decode_depth {s : Schema} {v w : s.Val} {bs t : Bytes} (hsame : Same s s v w) {c : Cursor}
    (hc : c.rest = bs ++ t) (hw : s.Spells n (s.depth v) w bs) (b : DepthBudget) :
    (s.depth v ≤ b.remaining → s.decode n.format ⟨c, b⟩ = .ok w ⟨c.advance bs.length, b⟩) ∧
    (b.remaining < s.depth v →
      ∃ d, s.decode n.format ⟨c, b⟩ = .error (.depthExceeded b.max) d) := by
  have hread := reads_decode n s
  have hdepth : s.depth v = s.depth w := (alike_of_same hsame).depth
  have hfull := (hread ⟨c, .full (s.depth v)⟩ w _).2 ⟨bs, t, hc, hw, rfl⟩
  obtain ⟨need, q, hl, hneed, hq, hrun⟩ := (settles_decode n s c).of_ok (i := ()) hfull
  obtain rfl : q = c.advance bs.length := congrArg Decoder.cursor hq
  refine ⟨fun hr => hrun () b (Nat.le_trans hneed hr), fun hr => ?_⟩
  rcases Nat.lt_or_ge b.remaining need with hlt | hge
  · obtain ⟨q', hq'⟩ := hl b hlt
    exact ⟨_, hq' ()⟩
  · obtain ⟨_, _, -, hspells, -⟩ := (hread _ _ _).1 (hrun () b hge)
    exact absurd (hdepth.trans_le (depth_le_of_spells hspells)) (Nat.not_le_of_lt hr)

/-- One depth limits both sides: with as much as the value has, or more, it is written, always
to the same bytes, and these are read; with less, both fail for want of depth. So whatever was
written as a whole under any settings is read under the default ones, which allow for every depth
the canonical format does. -/
theorem depth_limit (n : FormatName) {s : Schema} (hs : s.Supported) {v : s.Val} (hv : s.Valid v) :
    (s.Short n.format.maxLength v → ∃ bs w, Same s s v w ∧ s.Valid w ∧ (s.Ordered → w = v) ∧
      (∀ e : Encoder,
        (s.depth v ≤ e.depth.remaining →
          s.encode n.format v e = .ok () ⟨e.buffer ++ bs, e.depth⟩) ∧
        (e.depth.remaining < s.depth v →
          ∃ e', s.encode n.format v e = .error (.depthExceeded e.depth.max) e')) ∧
      ∀ (p t : Bytes) (b : DepthBudget),
        (s.depth v ≤ b.remaining → s.decode n.format ⟨⟨p ++ bs ++ t, p.length⟩, b⟩ =
          .ok w ⟨⟨p ++ bs ++ t, p.length + bs.length⟩, b⟩) ∧
        (b.remaining < s.depth v → ∃ d, s.decode n.format ⟨⟨p ++ bs ++ t, p.length⟩, b⟩ =
          .error (.depthExceeded b.max) d)) ∧
    ∀ (c : Config) (bs : Bytes), s.toBytes .canonical c v = .ok bs →
      ∃ w, s.ofBytes .canonical .default bs = .ok w ∧ Same s s v w ∧ s.Valid w ∧
        (s.Ordered → w = v) := by
  constructor
  · intro hm
    obtain ⟨w, hw, hsame, hval⟩ := readsBack n hs hv hm (Nat.le_refl (s.depth v))
    refine ⟨s.wire n v, w, hsame, hval, fun ho => (eq_of_same ho hv hval hsame).symm,
      encode_depth hm, fun p t b => ?_⟩
    refine decode_depth hsame (t := t) ?_ hw b
    rw [Cursor.rest, List.append_assoc, List.drop_left]
  · intro c bs hbs
    obtain ⟨hc, ⟨hm, hr⟩, rfl⟩ := (toBytes_eq_ok (n := .canonical)).1 hbs
    obtain ⟨hpos, hmax⟩ := Config.validate_eq_ok_iff.1 hc
    have hdefault : s.depth v ≤ Config.default.maxContainerDepth := Nat.le_trans hr hmax
    obtain ⟨w, hw, hsame, hval⟩ := readsBack .canonical hs hv hm hdefault
    refine ⟨w, (ofBytes_eq_ok (n := .canonical)).2 ⟨by decide, _, [], (List.append_nil _).symm, hw,
      fun _ => rfl⟩, hsame, hval, fun ho => (eq_of_same ho hv hval hsame).symm⟩

theorem depth_limit_shapes :
    (∃ bs, (map .unordered char (seq shape)).encode FormatName.fast.format
        [('b', [⟨0, ()⟩]), ('a', [])] ⟨[9], .full 3⟩ = .ok () ⟨[9] ++ bs, .full 3⟩ ∧
      ∃ d, (map .unordered char (seq shape)).decode FormatName.fast.format
        ⟨⟨[7] ++ bs ++ [5], 1⟩, .full 2⟩ = .error (.depthExceeded 2) d) ∧
    ∃ w, (map .unordered char (seq shape)).ofBytes .canonical .default [2, 97, 0, 98, 1, 0] = .ok w ∧
      Same (map .unordered char (seq shape)) (map .unordered char (seq shape))
        [('b', [⟨0, ()⟩]), ('a', [])] w := by
  have hs : (map .unordered char (seq shape)).Supported := by decide
  have hv : (map .unordered char (seq shape)).Valid [('b', [⟨0, ()⟩]), ('a', [])] :=
    @of_decide_eq_true _ (decidableValid _ _) rfl
  have hm : (map .unordered char (seq shape)).Short FormatName.fast.format.maxLength
      [('b', [⟨0, ()⟩]), ('a', [])] := by
    have hpoint : (seq shape).Short FormatName.fast.format.maxLength [⟨0, ()⟩] :=
      ⟨by decide, List.forall_mem_singleton.2 trivial⟩
    have hnone : (seq shape).Short FormatName.fast.format.maxLength [] :=
      ⟨by decide, List.forall_mem_nil _⟩
    exact ⟨by decide, List.forall_mem_cons.2 ⟨⟨trivial, hpoint⟩,
      List.forall_mem_singleton.2 ⟨trivial, hnone⟩⟩⟩
  constructor
  · obtain ⟨bs, w, -, -, -, henc, hdec⟩ := (depth_limit .fast hs hv).1 hm
    exact ⟨bs, (henc ⟨[9], .full 3⟩).1 (by decide), (hdec [7] [5] (.full 2)).2 (by decide)⟩
  · obtain ⟨w, hw, hsame, -⟩ := (depth_limit .canonical hs hv).2 ⟨7, false⟩
      [2, 97, 0, 98, 1, 0] (by cbv)
    exact ⟨w, hw, hsame⟩

end Schema

end WireCodec
