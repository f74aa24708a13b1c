import WireCodec.Proofs.Decoding
import WireCodec.Proofs.Encoding
import WireCodec.Proofs.Keys
import WireCodec.Proofs.Order

/-!
# Round trips

What was laid out is in the grammar, so it is read back: the value comes out with
the same content, wherever its bytes stand. A decoder answers one value to an input,
and this keeps the bytes of different keys apart; hence the entries of a map, which
are sorted as whole byte strings, pass the check on their keys.
-/
namespace WireCodec

open Bytes Grammar

theorem Iteration.lists_of_ascending {α β : Type} {cmp : α → α → Ordering} {es : List (α × β)}
    (h : Entries.Ascending cmp es) (it : Iteration) : it.Lists cmp (es.map Prod.fst) := by
  have hlt : (es.map Prod.fst).Pairwise (cmp · · = .lt) := List.pairwise_map.2 h
  cases it with
  | ascending => exact hlt
  | unordered =>
    refine hlt.imp fun hxy => ?_
    rw [hxy]
    exact nofun

theorem Iteration.Lists.ne {α : Type} {cmp : α → α → Ordering} {it : Iteration} {ks : List α}
    (h : it.Lists cmp ks) : ks.Pairwise (cmp · · ≠ .eq) := by
  cases it with
  | ascending =>
    refine List.Pairwise.imp (fun hxy => ?_) h
    rw [hxy]
    exact nofun
  | unordered => exact h

namespace Schema

/-- The front of an input is one value at most, with one byte string. -/
theorem spells_unique {n : FormatName} {s : Schema} {r : Nat} {v w : s.Val} {bs cs x y : Bytes}
    (hv : s.Spells n r v bs) (hw : s.Spells n r w cs) (h : bs ++ x = cs ++ y) : v = w ∧ bs = cs := by
  have hread := reads_decode n s ⟨.start (bs ++ x), .full r⟩
  have h₁ := (hread v _).2 ⟨bs, x, rfl, hv, rfl⟩
  have h₂ := (hread w _).2 ⟨cs, y, h, hw, rfl⟩
  rw [h₁] at h₂
  injection h₂ with hval hstate
  have hoff := congrArg Decoder.offset hstate
  have hlen : bs.length = cs.length := Nat.add_left_cancel hoff
  exact ⟨hval, List.append_inj_left h hlen⟩

/-- Of the bytes of two different values, neither are the front of the other's. -/
theorem spells_apart {n : FormatName} {s : Schema} {r : Nat} {v w : s.Val} {bs cs : Bytes}
    (hv : s.Spells n r v bs) (hw : s.Spells n r w cs) (h : v ≠ w) : Apart bs cs := by
  constructor
  · intro hpre
    obtain ⟨x, hx⟩ := hpre
    exact h (spells_unique hv hw (hx.trans (List.append_nil cs).symm)).1
  · intro hpre
    obtain ⟨x, hx⟩ := hpre
    exact h (spells_unique hw hv (hx.trans (List.append_nil bs).symm)).1.symm

/-- Values whose collections are all in ascending order have equal content only where they
are equal. -/
theorem eq_of_same {s : Schema} (ho : s.Ordered) {v w : s.Val} (hv : s.Valid v) (hw : s.Valid w)
    (h : Same s s v w) : v = w := by
  induction s with
  | scalar s => exact eq_of_heq h.2
  | option s ih =>
    cases h with
    | none => rfl
    | some h => exact congrArg some (ih ho hv hw h)
  | boxed s ih => exact ih ho hv hw h
  | pair a b iha ihb => exact Prod.ext (iha ho.1 hv.1 hw.1 h.1) (ihb ho.2 hv.2 hw.2 h.2)
  | seq s ih => exact eq_of_forall₂ h fun x hx y hy hxy => ih ho (hv x hx) (hw y hy) hxy
  | map it k t ihk iht =>
    obtain ⟨rfl, hok, hot⟩ := ho
    obtain ⟨es, hperm, hes⟩ := h
    obtain rfl := eq_of_forall₂ hes fun e he f hf hef =>
      have hve := hv.2 e (hperm.mem_iff.2 he)
      have hwf := hw.2 f hf
      Prod.ext (ihk hok hve.1 hwf.1 hef.1) (iht hot hve.2 hwf.2 hef.2)
    exact (totalOrder_compare k).eq_of_perm hv.1 hw.1 hperm
  | set it k ih =>
    obtain ⟨rfl, hok⟩ := ho
    obtain ⟨xs, hperm, hxs⟩ := h
    obtain rfl := eq_of_forall₂ hxs fun x hx y hy hxy =>
      ih hok (hv.2 x (hperm.mem_iff.2 hx)) (hw.2 y hy) hxy
    have hid : ∀ ys : List k.Val, ys.Pairwise (k.compare · · = .lt) →
        (ys.map id).Pairwise (k.compare · · = .lt) := fun ys hys => by rwa [List.map_id]
    exact (totalOrder_compare k).eq_of_perm (hid _ hv.1) (hid _ hw.1) hperm
  | framed s ih => exact ih ho hv hw h
  | choice count alt ih =>
    obtain ⟨i, x⟩ := v
    obtain ⟨j, y⟩ := w
    obtain ⟨hij, hxy⟩ := h
    obtain rfl := Fin.ext hij
    exact congrArg (Sigma.mk i) (ih i (ho i) hv hw hxy)
  | tree => exact h

theorem exists_inside {d r : Nat} (h : 1 + d ≤ r) : ∃ q, r = q + 1 ∧ d ≤ q :=
  ⟨r - 1, by omega, by omega⟩

section Collections

variable {α β : Type} {n : FormatName} {r : Nat}

theorem counted_succ {P : Grammar (List α)} {as : List α} {k : Nat} {bs : Bytes}
    (hk : k ≤ n.format.maxLength) (hl : as.length = k) (h : P r as bs) :
    counted n P (r + 1) as (n.lengthBytes k ++ bs) := by
  subst hl
  exact ⟨hk, bs, ⟨r, rfl, h⟩, rfl⟩

/-- Elements that each come back come back as a list, in their order. -/
theorem exists_all {P : Grammar β} {g : α → Bytes} {R : α → β → Prop} {Q : β → Prop} {as : List α}
    (h : ∀ a ∈ as, ∃ b, P r b (g a) ∧ R a b ∧ Q b) :
    ∃ bs : List β, bs.length = as.length ∧ all P r bs (as.flatMap g) ∧ List.Forall₂ R as bs ∧
      ∀ b ∈ bs, Q b := by
  obtain ⟨bs, hbs⟩ := exists_forall₂ h
  refine ⟨bs, hbs.length_eq.symm, ⟨as.map g, ?_, List.flatMap_def ..⟩,
    hbs.imp fun _ _ hab => hab.2.1, forall_of_forall₂ hbs.flip fun _ _ hab => hab.2.2⟩
  rw [List.forall₂_map_right_iff]
  exact (hbs.imp fun _ _ hab => hab.1).flip

variable {K : Grammar α} {V : Grammar β} {cmp : α → α → Ordering} {f : α → Bytes} {g : β → Bytes}
  {R : β → β → Prop} {es : List (α × β)}

/-- The arranged entries of a collection are in the grammar, and come to the same entries. -/
theorem exists_entries (ht : TotalOrder cmp) (hK : ∀ e ∈ es, K r e.1 (f e.1))
    (hV : ∀ e ∈ es, ∃ y, V r y (g e.2) ∧ R e.2 y)
    (ha : ∀ k l, K r k (f k) → K r l (f l) → k ≠ l → Apart (f k) (f l))
    (hes : (es.map Prod.fst).Pairwise (cmp · · ≠ .eq)) :
    ∃ fs : List (α × β), fs.length = es.length ∧
      entries n K V r fs (n.arrange (es.map fun e => f e.1 ++ g e.2)).flatten ∧
      UpToOrder (fun e e' => e.1 = e'.1 ∧ R e.2 e'.2) es (Entries.ofList cmp fs) := by
  have := ht.toTransCmp
  have hapart : es.Pairwise fun e e' => Apart (f e.1) (f e'.1) := by
    apply (List.pairwise_map.1 hes).imp_of_mem
    intro e e' he he' hne
    exact ha _ _ (hK e he) (hK e' he') fun heq => hne (heq ▸ ht.compare_self)
  obtain ⟨zs, hperm, harr, hkeys⟩ := n.exists_arranged (g := fun e : α × β => g e.2) hapart
  have hread : ∀ z ∈ zs, ∃ e : α × β,
      (K r e.1 (f z.1) ∧ V r e.2 (g z.2)) ∧ z.1 = e.1 ∧ R z.2 e.2 := by
    intro z hz
    obtain ⟨y, hy, hR⟩ := hV z (hperm.mem_iff.1 hz)
    exact ⟨(z.1, y), ⟨hK z (hperm.mem_iff.1 hz), hy⟩, rfl, hR⟩
  obtain ⟨fs, hfs⟩ := exists_forall₂ hread
  refine ⟨fs, hfs.length_eq.symm.trans hperm.length_eq,
    ⟨zs.map fun z => (f z.1, g z.2), ?_, ?_, ?_⟩, ?_⟩
  · rw [List.forall₂_map_right_iff]
    exact (hfs.imp fun _ _ h => h.1).flip
  · rw [List.map_map]
    exact hkeys
  · rw [harr, List.flatMap_def, List.map_map]
    rfl
  · have hfst : zs.map Prod.fst = fs.map Prod.fst := map_eq_of_forall₂ hfs fun _ _ h => h.2.1
    have hne : (fs.map Prod.fst).Pairwise (cmp · · ≠ .eq) := by
      rw [← hfst]
      exact ((hperm.map Prod.fst).pairwise_iff fun hab hba => hab (Std.OrientedCmp.eq_symm hba)).2 hes
    have hup : UpToOrder (fun e e' => e.1 = e'.1 ∧ R e.2 e'.2) es fs :=
      ⟨zs, hperm.symm, hfs.imp fun _ _ h => h.2⟩
    exact hup.trans_perm (Entries.ofList_perm ht (List.pairwise_map.1 hne)).symm

end Collections

/-- The bytes of the value stand for a value with the same content. -/
def ReadsBack (n : FormatName) (s : Schema) (r : Nat) (v : s.Val) : Prop :=
  ∃ w, s.Spells n r w (s.wire n v) ∧ Same s s v w ∧ s.Valid w

section ReadsBack

variable {n : FormatName} {s k t : Schema} {r : Nat} {it : Iteration}

theorem ReadsBack.self {v : s.Val} (h : ReadsBack n s r v) (ho : s.Ordered) (hv : s.Valid v) :
    s.Spells n r v (s.wire n v) := by
  obtain ⟨w, hw, hsame, hval⟩ := h
  rwa [← eq_of_same ho hv hval hsame] at hw

theorem readsBack_seq {vs : List s.Val} (hl : vs.length ≤ n.format.maxLength)
    (h : ∀ v ∈ vs, ReadsBack n s r v) : ReadsBack n (seq s) (r + 1) vs := by
  obtain ⟨ws, hlen, hws, hsame, hval⟩ := exists_all h
  exact ⟨ws, counted_succ hl hlen hws, hsame, hval⟩

theorem readsBack_map {es : List (k.Val × t.Val)} (ho : k.Ordered) (hv : (map it k t).Valid es)
    (hl : es.length ≤ n.format.maxLength)
    (h : ∀ e ∈ es, ReadsBack n k r e.1 ∧ ReadsBack n t r e.2) :
    ReadsBack n (map it k t) (r + 1) es := by
  obtain ⟨fs, hlen, hfs, hup⟩ := exists_entries (V := t.Spells n) (g := t.wire n)
    (R := fun x y => Same t t x y ∧ t.Valid y) (totalOrder_compare k)
    (fun e he => (h e he).1.self ho (hv.2 e he).1) (fun e he => (h e he).2)
    (fun _ _ => spells_apart) hv.1.ne
  have hval := hup.forall_iff (P := fun e => k.Valid e.1) (Q := fun e => k.Valid e.1 ∧ t.Valid e.2)
    fun e e' h => by rw [h.1, and_iff_left h.2.2]
  refine ⟨Entries.ofList k.compare fs, ⟨fs, rfl, counted_succ hl hlen hfs⟩, ?_, ?_, ?_⟩
  · exact hup.imp fun e e' h => ⟨h.1 ▸ same_refl k e.1, h.2.1⟩
  · exact Iteration.lists_of_ascending (Entries.ofList_ascending (totalOrder_compare k) fs) it
  · exact hval.1 fun e he => (hv.2 e he).1

theorem readsBack_set {xs : List k.Val} (ho : k.Ordered) (hv : (set it k).Valid xs)
    (hl : xs.length ≤ n.format.maxLength) (h : ∀ x ∈ xs, ReadsBack n k r x) :
    ReadsBack n (set it k) (r + 1) xs := by
  obtain ⟨es, rfl⟩ : ∃ es : List (k.Val × Unit), xs = es.map Prod.fst :=
    ⟨xs.map (·, ()), by rw [List.map_map]; exact (List.map_id xs).symm⟩
  rw [List.length_map] at hl
  rw [List.forall_mem_map] at h
  obtain ⟨fs, hfs, hsame, hval⟩ := readsBack_map (t := scalar .unit) ho ((valid_set es).1 hv) hl
    fun e he => ⟨h e he, e.2, ⟨trivial, rfl⟩, same_refl (scalar .unit) e.2, trivial⟩
  rw [← wire_set] at hfs
  refine ⟨List.map Prod.fst fs, spells_set.2 ⟨fs, rfl, hfs⟩, ?_, (valid_set fs).2 hval⟩
  exact UpToOrder.map hsame fun e f hef => hef.1

end ReadsBack

/-- By induction on the schema: with depth and lengths within their limits, what is laid out is in the
grammar, for a value of the same content. -/
theorem readsBack (n : FormatName) {s : Schema} (hs : s.Supported) {v : s.Val} (hv : s.Valid v)
    (hm : s.Short n.format.maxLength v) {r : Nat} (hr : s.depth v ≤ r) : ReadsBack n s r v := by
  induction s generalizing r with
  | scalar s => exact ⟨v, ⟨hm, rfl⟩, ⟨rfl, HEq.rfl⟩, trivial⟩
  | option s ih =>
    cases v with
    | none => exact ⟨none, rfl, .none, trivial⟩
    | some x =>
      obtain ⟨y, hy, hxy, hval⟩ := ih hs hv hm hr
      exact ⟨some y, ⟨_, hy, rfl⟩, .some hxy, hval⟩
  | boxed s ih => exact ih hs hv hm hr
  | pair a b iha ihb =>
    obtain ⟨x, hx, hvx, hvalx⟩ := iha hs.1 hv.1 hm.1 (Nat.le_trans (Nat.le_max_left ..) hr)
    obtain ⟨y, hy, hvy, hvaly⟩ := ihb hs.2 hv.2 hm.2 (Nat.le_trans (Nat.le_max_right ..) hr)
    exact ⟨(x, y), ⟨_, _, hx, hy, rfl⟩, ⟨hvx, hvy⟩, hvalx, hvaly⟩
  | seq s ih =>
    obtain ⟨q, rfl, hq⟩ := exists_inside hr
    exact readsBack_seq hm.1 fun x hx => ih hs (hv x hx) (hm.2 x hx) (deepest_map_le.1 hq x hx)
  | map it k t ihk iht =>
    obtain ⟨q, rfl, hq⟩ := exists_inside hr
    apply readsBack_map hs.1 hv hm.1
    intro e he
    have hmax := Nat.max_le.1 (deepest_map_le.1 hq e he)
    exact ⟨ihk hs.2.1 (hv.2 e he).1 (hm.2 e he).1 hmax.1,
      iht hs.2.2 (hv.2 e he).2 (hm.2 e he).2 hmax.2⟩
  | set it k ih =>
    obtain ⟨q, rfl, hq⟩ := exists_inside hr
    exact readsBack_set hs.1 hv hm.1 fun x hx =>
      ih hs.2 (hv.2 x hx) (hm.2 x hx) (deepest_map_le.1 hq x hx)
  | framed s ih =>
    obtain ⟨q, rfl, hq⟩ := exists_inside hr
    obtain ⟨w, hw, hvw, hval⟩ := ih hs hv hm hq
    exact ⟨w, ⟨q, rfl, hw⟩, hvw, hval⟩
  | choice count alt ih =>
    obtain ⟨i, x⟩ := v
    obtain ⟨y, hy, hxy, hval⟩ := ih i (hs.2 i) hv hm hr
    exact ⟨⟨i, y⟩, ⟨Nat.lt_of_lt_of_le i.isLt hs.1, _, hy, rfl⟩, ⟨rfl, hxy⟩, hval⟩
  | tree => exact ⟨v, ⟨hm, hr, rfl⟩, rfl, trivial⟩

/-- What was encoded is decoded, wherever it stands in the input and whatever surrounds it:
the decoder answers a value of the same content and has passed just the bytes of the value.
The depth that was enough to write the value is enough to read it. -/
theorem decode_after_encode (n : FormatName) {s : Schema} (hs : s.Supported) {v : s.Val}
    (hv : s.Valid v) :
    (∀ (e e' : Encoder) (bs p t : Bytes) (b : DepthBudget),
      s.encode n.format v e = .ok () e' → e'.buffer = e.buffer ++ bs →
      e.depth.remaining ≤ b.remaining →
      ∃ w, s.decode n.format ⟨⟨p ++ bs ++ t, p.length⟩, b⟩ =
          .ok w ⟨⟨p ++ bs ++ t, p.length + bs.length⟩, b⟩ ∧
        Same s s v w ∧ s.Valid w ∧ (s.Ordered → w = v)) ∧
    ∀ (c : Config) (bs : Bytes), s.toBytes n.format c v = .ok bs →
      ∃ w, s.ofBytes n.format c bs = .ok w ∧ Same s s v w ∧ s.Valid w ∧ (s.Ordered → w = v) := by
  constructor
  · intro e e' bs p t b he hbs hb
    obtain ⟨⟨hm, hr⟩, rfl⟩ := (appends_encode n s v e e').1 he
    obtain rfl := List.append_cancel_left hbs
    obtain ⟨w, hw, hsame, hval⟩ := readsBack n hs hv hm (Nat.le_trans hr hb)
    refine ⟨w, (reads_decode n s _ w _).2 ⟨s.wire n v, t, ?_, hw, rfl⟩, hsame, hval, fun ho => ?_⟩
    · rw [Cursor.rest, List.append_assoc, List.drop_left]
    · exact (eq_of_same ho hv hval hsame).symm
  · intro c bs hbs
    obtain ⟨hc, ⟨hm, hr⟩, rfl⟩ := toBytes_eq_ok.1 hbs
    obtain ⟨w, hw, hsame, hval⟩ := readsBack n hs hv hm hr
    refine ⟨w, ofBytes_eq_ok.2 ⟨hc, _, [], (List.append_nil _).symm, hw, fun _ => rfl⟩, hsame, hval,
      fun ho => ?_⟩
    exact (eq_of_same ho hv hval hsame).symm

/-- In the middle of an input, a map and a set in it whose order of iteration is not that on the wire. -/
theorem decode_after_encode_unordered : ∃ w,
    (map .unordered (scalar (.uint .w16)) (set .unordered (scalar .char))).decode
        FormatName.canonical.format ⟨⟨[7] ++ [2, 0, 1, 2, 97, 98, 1, 0, 0] ++ [5], 1⟩, .full 2⟩ =
      .ok w ⟨⟨[7] ++ [2, 0, 1, 2, 97, 98, 1, 0, 0] ++ [5], 10⟩, .full 2⟩ ∧
    Same (map .unordered (scalar (.uint .w16)) (set .unordered (scalar .char)))
      (map .unordered (scalar (.uint .w16)) (set .unordered (scalar .char)))
      [(1#16, []), (256#16, ['b', 'a'])] w := by
  have hs : (map .unordered (scalar (.uint .w16)) (set .unordered (scalar .char))).Supported := by
    decide
  have hv : (map .unordered (scalar (.uint .w16)) (set .unordered (scalar .char))).Valid
      [(1#16, []), (256#16, ['b', 'a'])] := @of_decide_eq_true _ (decidableValid _ _) rfl
  obtain ⟨w, hw, hsame, -⟩ := (decode_after_encode .canonical hs hv).1 ⟨[9], .full 2⟩
    ⟨[9, 2, 0, 1, 2, 97, 98, 1, 0, 0], .full 2⟩ [2, 0, 1, 2, 97, 98, 1, 0, 0] [7] [5] (.full 2)
    (by cbv) rfl (Nat.le_refl _)
  exact ⟨w, hw, hsame⟩

end Schema

end WireCodec
