import WireCodec.Proofs.Iteration
import WireCodec.Proofs.RoundTrip

/-!
# One encoding for a value

Under the canonical format the grammar has no choice: the byte string of a value is
its layout. Lengths, tags and texts have one spelling each. The keys of a map stand
in strictly ascending order, so no two of them are equal and no entry is lost when
the entries are collected, whence they are all there when the map is written again.
-/
namespace WireCodec

open Bytes Grammar

namespace Schema

/-- The bytes are the ones that the value is written as, and it can be written. -/
structure Faithful (n : FormatName) (s : Schema) (r : Nat) (v : s.Val) (bs : Bytes) : Prop where
  valid : s.Valid v
  short : s.Short n.format.maxLength v
  depth : s.depth v ≤ r
  wire : bs = s.wire n v

variable {n : FormatName} {s k t : Schema} {r : Nat} {it : Iteration} {bs : Bytes}

theorem faithful_seq (ih : ∀ q x cs, s.Spells n q x cs → Faithful n s q x cs) {vs : List s.Val}
    (h : (seq s).Spells n r vs bs) : Faithful n (seq s) r vs bs := by
  obtain ⟨hl, _, ⟨q, rfl, css, hcss, rfl⟩, rfl⟩ := h
  have hone : ∀ x cs, s.Spells n q x cs →
      (s.Valid x ∧ s.Short n.format.maxLength x ∧ s.depth x ≤ q) ∧ cs = s.wire n x := by
    intro x cs hx
    have hf := ih q x cs hx
    exact ⟨⟨hf.valid, hf.short, hf.depth⟩, hf.wire⟩
  obtain ⟨hvs, rfl⟩ := forall₂_eq_map.1 (hcss.imp hone)
  have hd := deepest_map_le.2 fun x hx => (hvs x hx).2.2
  refine ⟨fun x hx => (hvs x hx).1, ⟨hl, fun x hx => (hvs x hx).2.1⟩, ?_, ?_⟩
  · rw [Nat.add_comm]
    exact Nat.add_le_add_left hd 1
  · rw [← List.flatMap_def]
    rfl

section Collections

variable {α β : Type} {cmp : α → α → Ordering} {fs : List (α × β)} {f : α → Bytes} {g : β → Bytes}

/-- Keys in the order of the format are distinct, and collecting them loses nothing. -/
theorem ofList_keyOrder (ht : TotalOrder cmp) (hk : KeyOrder .canonical (fs.map fun e => f e.1)) :
    (Entries.ofList cmp fs).Perm fs := by
  apply Entries.ofList_perm ht
  apply (List.pairwise_map.1 (keyOrder_canonical.1 hk)).imp
  intro e e' hlt heq
  rw [ht.eq_of_compare heq, Std.ReflOrd.compare_self] at hlt
  cases hlt

theorem arrange_ofList (ht : TotalOrder cmp) (hk : KeyOrder .canonical (fs.map fun e => f e.1))
    (ha : ∀ e ∈ fs, ∀ e' ∈ fs, e.1 ≠ e'.1 → Apart (f e.1) (f e'.1)) :
    FormatName.canonical.arrange ((Entries.ofList cmp fs).map fun e => f e.1 ++ g e.2) =
      fs.map fun e => f e.1 ++ g e.2 := by
  have hapart : fs.Pairwise fun e e' => Apart (f e.1) (f e'.1) := by
    apply (List.pairwise_map.1 (keyOrder_canonical.1 hk)).imp_of_mem
    intro e e' he he' hlt
    apply ha e he e' he'
    intro heq
    rw [heq, Std.ReflOrd.compare_self] at hlt
    cases hlt
  rw [FormatName.arrange_eq_of_perm ((ofList_keyOrder ht hk).map _)]
  exact FormatName.arrange_of_keyOrder hapart hk

end Collections

theorem faithful_map (ihk : ∀ q x cs, k.Spells .canonical q x cs → Faithful .canonical k q x cs)
    (iht : ∀ q x cs, t.Spells .canonical q x cs → Faithful .canonical t q x cs)
    {es : List (k.Val × t.Val)} (h : (map it k t).Spells .canonical r es bs) :
    Faithful .canonical (map it k t) r es bs := by
  obtain ⟨fs, rfl, hl, _, ⟨q, rfl, cs, hcs, hkeys, rfl⟩, rfl⟩ := h
  have hone : ∀ (e : k.Val × t.Val) (c : Bytes × Bytes),
      k.Spells .canonical q e.1 c.1 ∧ t.Spells .canonical q e.2 c.2 →
      (Faithful .canonical k q e.1 (k.wire .canonical e.1) ∧
        Faithful .canonical t q e.2 (t.wire .canonical e.2) ∧
        k.Spells .canonical q e.1 (k.wire .canonical e.1)) ∧
      c = (k.wire .canonical e.1, t.wire .canonical e.2) := by
    rintro ⟨x, y⟩ ⟨c, d⟩ ⟨hx, hy⟩
    have hfx := ihk q x c hx
    have hfy := iht q y d hy
    obtain rfl := hfx.wire
    obtain rfl := hfy.wire
    exact ⟨⟨hfx, hfy, hx⟩, rfl⟩
  obtain ⟨hfs, rfl⟩ := forall₂_eq_map.1 (hcs.imp hone)
  rw [List.map_map] at hkeys
  have hperm := ofList_keyOrder (totalOrder_compare k) hkeys
  have harr := arrange_ofList (g := t.wire .canonical) (totalOrder_compare k) hkeys
    fun e he e' he' => spells_apart (hfs e he).2.2 (hfs e' he').2.2
  have hmem := fun e (he : e ∈ Entries.ofList k.compare fs) => hfs e (hperm.mem_iff.1 he)
  refine ⟨⟨?_, ?_⟩, ⟨?_, ?_⟩, ?_, ?_⟩
  · exact Iteration.lists_of_ascending (Entries.ofList_ascending (totalOrder_compare k) fs) it
  · exact fun e he => ⟨(hmem e he).1.valid, (hmem e he).2.1.valid⟩
  · rw [hperm.length_eq]
    exact hl
  · exact fun e he => ⟨(hmem e he).1.short, (hmem e he).2.1.short⟩
  · rw [Nat.add_comm]
    exact Nat.add_le_add_left (deepest_map_le.2 fun e he =>
      Nat.max_le.2 ⟨(hmem e he).1.depth, (hmem e he).2.1.depth⟩) 1
  · simp only [wire]
    rw [hperm.length_eq, harr, List.flatMap_map, List.flatMap_def]

theorem faithful_set (ihk : ∀ q x cs, k.Spells .canonical q x cs → Faithful .canonical k q x cs)
    {xs : List k.Val} (h : (set it k).Spells .canonical r xs bs) :
    Faithful .canonical (set it k) r xs bs := by
  obtain ⟨es, rfl, hes⟩ := spells_set.1 h
  have hunit : ∀ q x cs, (scalar .unit).Spells .canonical q x cs →
      Faithful .canonical (scalar .unit) q x cs := by
    intro q x cs hx
    exact ⟨trivial, trivial, Nat.zero_le q, hx.2⟩
  have hf := faithful_map ihk hunit hes
  exact ⟨(valid_set es).2 hf.valid, (short_set es).2 hf.short, (depth_set es).trans_le hf.depth,
    hf.wire.trans (wire_set es).symm⟩

/-- Where the grammar leaves no choice, under the canonical format and away from maps, whatever it
has for a value is the layout of the value. -/
theorem faithful_of_no_choice {s : Schema} (hn : n = .canonical ∨ s.MapFree) {v : s.Val}
    (h : s.Spells n r v bs) : Faithful n s r v bs := by
  induction s generalizing r bs with
  | scalar s => exact ⟨trivial, h.1, Nat.zero_le r, h.2⟩
  | option s ih =>
    cases v with
    | none => exact ⟨trivial, trivial, Nat.zero_le r, h⟩
    | some x =>
      obtain ⟨cs, hx, rfl⟩ := h
      have hf := ih hn hx
      exact ⟨hf.valid, hf.short, hf.depth, congrArg (1 :: ·) hf.wire⟩
  | boxed s ih =>
    have hf := ih hn (v := v) h
    exact ⟨hf.valid, hf.short, hf.depth, hf.wire⟩
  | pair a b iha ihb =>
    obtain ⟨cs, ds, hx, hy, rfl⟩ := h
    have hfx := iha (hn.imp_right And.left) hx
    have hfy := ihb (hn.imp_right And.right) hy
    exact ⟨⟨hfx.valid, hfy.valid⟩, ⟨hfx.short, hfy.short⟩, Nat.max_le.2 ⟨hfx.depth, hfy.depth⟩,
      congr (congrArg HAppend.hAppend hfx.wire) hfy.wire⟩
  | seq s ih => exact faithful_seq (fun q x cs => ih hn) h
  | map it k t ihk iht =>
    obtain rfl | hfree := hn
    · exact faithful_map (fun q x cs => ihk (.inl rfl)) (fun q x cs => iht (.inl rfl)) h
    · exact hfree.elim
  | set it k ih =>
    obtain rfl | hfree := hn
    · exact faithful_set (fun q x cs => ih (.inl rfl)) h
    · exact hfree.elim
  | framed s ih =>
    obtain ⟨q, rfl, hv⟩ := h
    have hf := ih hn hv
    refine ⟨hf.valid, hf.short, ?_, hf.wire⟩
    exact (Nat.add_comm 1 _).trans_le (Nat.succ_le_succ hf.depth)
  | choice count alt ih =>
    obtain ⟨-, cs, hx, rfl⟩ := h
    have hf := ih v.1 (hn.imp_right fun hfree => hfree v.1) hx
    exact ⟨hf.valid, hf.short, hf.depth, congrArg (n.variantBytes v.1 ++ ·) hf.wire⟩
  | tree => exact ⟨trivial, h.1, h.2.1, h.2.2⟩

theorem faithful_of_spells {s : Schema} {v : s.Val} (h : s.Spells .canonical r v bs) :
    Faithful .canonical s r v bs := faithful_of_no_choice (.inl rfl) h

/-- Encoding undoes decoding. Where a value is decoded, any value of the same content is
encoded, with as much depth, to just the bytes that were read; and an input that is a whole
value is the only one for that value. -/
theorem encode_after_decode (s : Schema) :
    (∀ (d d' : Decoder) (v : s.Val), s.decode .canonical d = .ok v d' → s.Valid v ∧
      ∀ (w : s.Val) (e : Encoder), Same s s v w → d.depth.remaining ≤ e.depth.remaining →
        s.encode .canonical w e =
          .ok () ⟨e.buffer ++ d.cursor.input.extract d.offset d'.offset, e.depth⟩) ∧
    ∀ (c : Config) (bs : Bytes) (v w : s.Val), c.rejectTrailing → s.ofBytes .canonical c bs = .ok v →
      Same s s v w → s.toBytes .canonical c w = .ok bs := by
  constructor
  · intro d d' v hd
    obtain ⟨bs, t, hr, hv, rfl⟩ := (reads_decode .canonical s d v d').1 hd
    have hf := faithful_of_spells hv
    refine ⟨hf.valid, fun w e hsame hdepth => ?_⟩
    have ha := alike_of_same hsame
    have hshort := (ha.short _).1 hf.short
    have hfit := Nat.le_trans (ha.depth ▸ hf.depth) hdepth
    refine (appends_encode .canonical s w e _).2 ⟨⟨hshort, hfit⟩, ?_⟩
    have hbs := Cursor.extract_offset hr
    rw [← ha.wire, ← hf.wire]
    exact congrArg (fun cs => Encoder.mk (e.buffer ++ cs) e.depth) hbs
  · intro c bs v w hreject hd hsame
    obtain ⟨hc, cs, t, rfl, hv, ht⟩ := (ofBytes_eq_ok (n := .canonical)).1 hd
    have hf := faithful_of_spells hv
    have ha := alike_of_same hsame
    have hfit : s.depth w ≤ c.maxContainerDepth := ha.depth ▸ hf.depth
    rw [ht hreject, List.append_nil, hf.wire, ha.wire]
    exact (toBytes_eq_ok (n := .canonical)).2 ⟨hc, ⟨(ha.short _).1 hf.short, hfit⟩, rfl⟩

theorem encode_after_decode_unordered :
    (map .unordered (scalar .char) (option (scalar .text))).encode .canonical
        [('b', none), ('a', some "é")] ⟨[9], .full 3⟩ =
      .ok () ⟨[9, 2, 97, 1, 2, 195, 169, 98, 0], .full 3⟩ := by
  have hd : (map .unordered (scalar .char) (option (scalar .text))).decode .canonical
      ⟨⟨[7, 2, 97, 1, 2, 195, 169, 98, 0, 5], 1⟩, .full 1⟩ = .ok [('a', some "é"), ('b', none)]
        ⟨⟨[7, 2, 97, 1, 2, 195, 169, 98, 0, 5], 9⟩, .full 1⟩ := by cbv
  have hsame : Same (map .unordered (scalar .char) (option (scalar .text)))
      (map .unordered (scalar .char) (option (scalar .text)))
      [('a', some "é"), ('b', none)] [('b', none), ('a', some "é")] :=
    UpToOrder.of_perm (fun e => ⟨same_refl _ e.1, same_refl _ e.2⟩) (.swap ..)
  exact ((encode_after_decode (map .unordered (scalar .char) (option (scalar .text)))).1 _ _ _ hd).2
    [('b', none), ('a', some "é")] ⟨[9], .full 3⟩ hsame (by decide)

end Schema

end WireCodec
