import WireCodec.Proofs.Canonical
import WireCodec.Proofs.DepthLimit

/-!
# The normal form of the fast format

The fast format has one byte string for each value in which no map or set occurs. Entries,
however, may come in any order and more than once. When they are collected, some may be lost but
none is added, and the bytes of a key are no longer than the ones it was read from. So a
value that was read is written in no more bytes, and these are read as the same value.
-/
namespace WireCodec

open Grammar

section Length

variable {α β γ : Type}

theorem length_flatMap_le_of_subperm {xs ys : List α} (h : xs.Subperm ys) (f : α → List γ) :
    (xs.flatMap f).length ≤ (ys.flatMap f).length := by
  obtain ⟨zs, hperm, hsub⟩ := h
  exact (hperm.flatMap_right f).length_eq.ge.trans (hsub.flatMap f).length_le

theorem length_flatMap_le_of_forall₂ {R : α → β → Prop} {f : α → List γ} {g : β → List γ}
    {xs : List α} {ys : List β} (h : List.Forall₂ R xs ys)
    (hR : ∀ x y, R x y → (f x).length ≤ (g y).length) :
    (xs.flatMap f).length ≤ (ys.flatMap g).length := by
  induction h with
  | nil => exact Nat.le_refl 0
  | cons hxy _ ih =>
    rw [List.flatMap_cons, List.flatMap_cons, List.length_append, List.length_append]
    exact Nat.add_le_add (hR _ _ hxy) ih

end Length

namespace Schema

/-- The value can be written, in no more bytes than the given ones. -/
structure Compact (s : Schema) (v : s.Val) (bs : Bytes) : Prop where
  valid : s.Valid v
  short : s.Short FormatName.fast.format.maxLength v
  length : (s.wire .fast v).length ≤ bs.length

variable {s k t : Schema} {r : Nat} {it : Iteration} {bs : Bytes}

theorem compact_seq (ih : ∀ q x cs, s.Spells .fast q x cs → Compact s x cs) {vs : List s.Val}
    (h : (seq s).Spells .fast r vs bs) : Compact (seq s) vs bs := by
  obtain ⟨hl, _, ⟨q, rfl, css, hcss, rfl⟩, rfl⟩ := h
  have hone : List.Forall₂ (Compact s) vs css := hcss.imp fun x cs hx => ih q x cs hx
  refine ⟨forall_of_forall₂ hone fun _ _ hx => hx.valid,
    ⟨hl, forall_of_forall₂ hone fun _ _ hx => hx.short⟩, ?_⟩
  have hlen := length_flatMap_le_of_forall₂ (g := id) hone fun x cs hx => hx.length
  rw [List.flatMap_id] at hlen
  change (FormatName.fast.lengthBytes vs.length ++ vs.flatMap (s.wire .fast)).length ≤ _
  rw [List.length_append, List.length_append]
  exact Nat.add_le_add_left hlen _

theorem compact_map (ihk : ∀ q x cs, k.Spells .fast q x cs → Compact k x cs)
    (iht : ∀ q x cs, t.Spells .fast q x cs → Compact t x cs) {es : List (k.Val × t.Val)}
    (h : (map it k t).Spells .fast r es bs) : Compact (map it k t) es bs := by
  obtain ⟨fs, rfl, hl, _, ⟨q, rfl, cs, hcs, -, rfl⟩, rfl⟩ := h
  have hone : List.Forall₂ (fun e c => Compact k e.1 c.1 ∧ Compact t e.2 c.2) fs cs :=
    hcs.imp fun e c he => ⟨ihk q e.1 c.1 he.1, iht q e.2 c.2 he.2⟩
  have hvalid : ∀ e ∈ fs, k.Valid e.1 ∧ t.Valid e.2 :=
    forall_of_forall₂ hone fun _ _ he => ⟨he.1.valid, he.2.valid⟩
  have hshort : ∀ e ∈ fs, k.Short FormatName.fast.format.maxLength e.1 ∧
      t.Short FormatName.fast.format.maxLength e.2 :=
    forall_of_forall₂ hone fun _ _ he => ⟨he.1.short, he.2.short⟩
  have hsub := Entries.ofList_subperm (totalOrder_compare k) fs
  refine ⟨⟨?_, fun e he => hvalid e (hsub.subset he)⟩,
    ⟨hsub.length_le.trans hl, fun e he => hshort e (hsub.subset he)⟩, ?_⟩
  · exact Iteration.lists_of_ascending (Entries.ofList_ascending (totalOrder_compare k) fs) it
  · have hlost := length_flatMap_le_of_subperm hsub fun e => k.wire .fast e.1 ++ t.wire .fast e.2
    have hlen := length_flatMap_le_of_forall₂ (f := fun e => k.wire .fast e.1 ++ t.wire .fast e.2)
      (g := fun c => c.1 ++ c.2) hone fun e c he => by
        rw [List.length_append, List.length_append]
        exact Nat.add_le_add he.1.length he.2.length
    -- a count is eight bytes long, however many it counts
    change (Bytes.ofNat 8 _ ++ List.flatten (List.map _ _)).length ≤ (Bytes.ofNat 8 _ ++ _).length
    rw [← List.flatMap_def, List.length_append, List.length_append, Bytes.length_ofNat,
      Bytes.length_ofNat]
    exact Nat.add_le_add_left (hlost.trans hlen) 8

theorem compact_set (ihk : ∀ q x cs, k.Spells .fast q x cs → Compact k x cs) {xs : List k.Val}
    (h : (set it k).Spells .fast r xs bs) : Compact (set it k) xs bs := by
  obtain ⟨es, rfl, hes⟩ := spells_set.1 h
  have hunit : ∀ q x cs, (scalar .unit).Spells .fast q x cs → Compact (scalar .unit) x cs :=
    fun q x cs hx => ⟨trivial, trivial, Nat.zero_le _⟩
  have hc := compact_map ihk hunit hes
  exact ⟨(valid_set es).2 hc.valid, (short_set es).2 hc.short,
    (congrArg List.length (wire_set es)).trans_le hc.length⟩

/-- Whatever bytes a value is read from, it is written in no more. -/
theorem compact_of_spells {s : Schema} {v : s.Val} (h : s.Spells .fast r v bs) :
    Compact s v bs := by
  induction s generalizing r bs with
  | scalar s => exact ⟨trivial, h.1, (congrArg List.length h.2).ge⟩
  | option s ih =>
    cases v with
    | none => exact ⟨trivial, trivial, (congrArg List.length h).ge⟩
    | some x =>
      obtain ⟨cs, hx, rfl⟩ := h
      exact ⟨(ih hx).valid, (ih hx).short, Nat.succ_le_succ (ih hx).length⟩
  | boxed s ih =>
    have hc := ih (v := v) h
    exact ⟨hc.valid, hc.short, hc.length⟩
  | pair a b iha ihb =>
    obtain ⟨cs, ds, hx, hy, rfl⟩ := h
    refine ⟨⟨(iha hx).valid, (ihb hy).valid⟩, ⟨(iha hx).short, (ihb hy).short⟩, ?_⟩
    change (a.wire .fast v.1 ++ b.wire .fast v.2).length ≤ _
    rw [List.length_append, List.length_append]
    exact Nat.add_le_add (iha hx).length (ihb hy).length
  | seq s ih => exact compact_seq (fun q x cs => ih) h
  | map it k t ihk iht => exact compact_map (fun q x cs => ihk) (fun q x cs => iht) h
  | set it k ih => exact compact_set (fun q x cs => ih) h
  | framed s ih =>
    obtain ⟨q, rfl, hv⟩ := h
    exact ⟨(ih hv).valid, (ih hv).short, (ih hv).length⟩
  | choice count alt ih =>
    obtain ⟨-, cs, hx, rfl⟩ := h
    refine ⟨(ih v.1 hx).valid, (ih v.1 hx).short, ?_⟩
    change (FormatName.fast.variantBytes v.1 ++ (alt v.1).wire .fast v.2).length ≤ _
    rw [List.length_append, List.length_append]
    exact Nat.add_le_add_left (ih v.1 hx).length _
  | tree => exact ⟨trivial, h.1, (congrArg List.length h.2.2).ge⟩

/-- Under the fast format a value that was read can be written again with the same depth. Away from
maps and sets this gives back the bytes that were read. With maps and sets that are visited in
order it gives the normal form of these bytes: no more of them, read as the same value,
which is written as just them again. -/
theorem fast_normal_form (s : Schema) {d d' : Decoder} {v : s.Val}
    (hd : s.decode .fast d = .ok v d') :
    (s.MapFree → ∀ e : Encoder, d.depth.remaining ≤ e.depth.remaining →
      s.encode .fast v e =
        .ok () ⟨e.buffer ++ d.cursor.input.extract d.offset d'.offset, e.depth⟩) ∧
    (s.Supported → s.Ordered → ∃ bs : Bytes, bs.length ≤ d'.offset - d.offset ∧
      (∀ e : Encoder, d.depth.remaining ≤ e.depth.remaining →
        s.encode .fast v e = .ok () ⟨e.buffer ++ bs, e.depth⟩) ∧
      ∀ (p t : Bytes) (b : DepthBudget), d.depth.remaining ≤ b.remaining →
        s.decode .fast ⟨⟨p ++ bs ++ t, p.length⟩, b⟩ =
          .ok v ⟨⟨p ++ bs ++ t, p.length + bs.length⟩, b⟩) := by
  obtain ⟨cs, u, hr, hv, rfl⟩ := (reads_decode .fast s d v d').1 hd
  have hc := compact_of_spells hv
  have hdepth := depth_le_of_spells hv
  have henc : ∀ e : Encoder, d.depth.remaining ≤ e.depth.remaining →
      s.encode .fast v e = .ok () ⟨e.buffer ++ s.wire .fast v, e.depth⟩ := fun e he =>
    (appends_encode .fast s v e _).2 ⟨⟨hc.short, hdepth.trans he⟩, rfl⟩
  constructor
  · intro hfree e he
    have hf := faithful_of_no_choice (.inr hfree) hv
    have hcs : d.cursor.input.extract d.offset (d.offset + cs.length) = s.wire .fast v :=
      (Cursor.extract_offset hr).trans hf.wire
    rw [henc e he, ← hcs]
    rfl
  · intro hs ho
    refine ⟨s.wire .fast v, ?_, henc, fun p t b hb => ?_⟩
    · change _ ≤ d.offset + cs.length - d.offset
      rw [Nat.add_sub_cancel_left]
      exact hc.length
    · have hself := (readsBack .fast hs hc.valid hc.short (hdepth.trans hb)).self ho hc.valid
      refine (reads_decode .fast s _ v _).2 ⟨s.wire .fast v, t, ?_, hself, rfl⟩
      rw [Cursor.rest, List.append_assoc, List.drop_left]

/-- The keys `{2, 1, 1}` and `{1, 2}` are one key, under which the second entry counts. -/
theorem fast_normal_form_sets :
    (seq (option char)).encode .fast [none, some 'é'] ⟨[9], .full 1⟩ =
      .ok () ⟨[9] ++ [2, 0, 0, 0, 0, 0, 0, 0, 0, 1, 195, 169], .full 1⟩ ∧
    ∃ bs : Bytes, bs.length ≤ 31 ∧
      (map .ascending (set .ascending (scalar (.uint .w8))) bool).encode .fast
        [([1#8, 2#8], false)] ⟨[9], .full 2⟩ = .ok () ⟨[9] ++ bs, .full 2⟩ ∧
      (map .ascending (set .ascending (scalar (.uint .w8))) bool).decode .fast
        ⟨⟨[7] ++ bs ++ [7], 1⟩, .full 2⟩ =
          .ok [([1#8, 2#8], false)] ⟨⟨[7] ++ bs ++ [7], 1 + bs.length⟩, .full 2⟩ := by
  constructor
  · have hd : (seq (option char)).decode .fast
        ⟨⟨[7, 2, 0, 0, 0, 0, 0, 0, 0, 0, 1, 195, 169, 7], 1⟩, .full 1⟩ =
      .ok [none, some 'é'] ⟨⟨[7, 2, 0, 0, 0, 0, 0, 0, 0, 0, 1, 195, 169, 7], 13⟩, .full 1⟩ := by cbv
    exact (fast_normal_form (seq (option char)) hd).1 (by decide) ⟨[9], .full 1⟩ (by decide)
  · have hd : (map .ascending (set .ascending (scalar (.uint .w8))) bool).decode .fast
        ⟨⟨[2, 0, 0, 0, 0, 0, 0, 0, 3, 0, 0, 0, 0, 0, 0, 0, 2, 1, 1, 1,
          2, 0, 0, 0, 0, 0, 0, 0, 1, 2, 0], 0⟩, .full 2⟩ =
      .ok [([1#8, 2#8], false)] ⟨⟨[2, 0, 0, 0, 0, 0, 0, 0, 3, 0, 0, 0, 0, 0, 0, 0, 2, 1, 1, 1,
          2, 0, 0, 0, 0, 0, 0, 0, 1, 2, 0], 31⟩, .full 2⟩ := by cbv
    obtain ⟨bs, hlen, henc, hdec⟩ := (fast_normal_form
      (map .ascending (set .ascending (scalar (.uint .w8))) bool) hd).2 (by decide) (by decide)
    exact ⟨bs, hlen, henc ⟨[9], .full 2⟩ (by decide), hdec [7] [7] (.full 2) (by decide)⟩

example : drawing.Supported ∧ drawing.Ordered := by decide

end Schema

end WireCodec
