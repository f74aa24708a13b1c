import WireCodec.Proofs.Iteration
import WireCodec.Proofs.RoundTrip

/-!
# Sorting entries sorts keys

The canonical format sorts the entries of a map as whole byte strings. No key has bytes that begin
with those of another key, for a decoder would have to read both keys off the same input. So two
entries compare as their keys do, whatever the values, and a map is written as the list of its
entries would be in the order of the bytes of their keys.
-/
namespace WireCodec

open Bytes Encoder Grammar

namespace Schema

/-- Different keys have bytes that are apart. -/
theorem wire_apart (n : FormatName) {k : Schema} (ho : k.Ordered) (hs : k.Supported) {x y : k.Val}
    (hx : k.Valid x) (hy : k.Valid y) (hmx : k.Short n.format.maxLength x)
    (hmy : k.Short n.format.maxLength y) (h : x ≠ y) : Apart (k.wire n x) (k.wire n y) := by
  have hspell : ∀ z, k.Valid z → k.Short n.format.maxLength z →
      k.depth z ≤ max (k.depth x) (k.depth y) →
      k.Spells n (max (k.depth x) (k.depth y)) z (k.wire n z) :=
    fun z hz hm hr => (readsBack n hs hz hm hr).self ho hz
  exact spells_apart (hspell x hx hmx (Nat.le_max_left ..)) (hspell y hy hmy (Nat.le_max_right ..)) h

theorem pairwise_wire_apart (n : FormatName) {k : Schema} (ho : k.Ordered) (hs : k.Supported)
    {γ : Type} {f : γ → k.Val} {es : List γ} (hv : ∀ x ∈ es, k.Valid (f x))
    (hd : es.Pairwise fun x y => f x ≠ f y) (hm : ∀ x ∈ es, k.Short n.format.maxLength (f x)) :
    es.Pairwise fun x y => Apart (k.wire n (f x)) (k.wire n (f y)) :=
  hd.imp_of_mem fun hx hy hne => wire_apart n ho hs (hv _ hx) (hv _ hy) (hm _ hx) (hm _ hy) hne

end Schema

section Entries

variable {γ : Type} {key rest : γ → Bytes} {es : List γ}

/-- In ascending order of the bytes of the keys. -/
def byKey (key : γ → Bytes) (es : List γ) : List γ :=
  es.mergeSort fun x y => (compare (key x) (key y)).isLE

theorem byKey_perm (key : γ → Bytes) (es : List γ) : (byKey key es).Perm es :=
  List.mergeSort_perm es _

/-- The keys are sorted as they would be by themselves. -/
theorem map_byKey (key : γ → Bytes) (es : List γ) :
    (byKey key es).map key = FormatName.canonical.format.sortEntries (es.map key) :=
  List.map_mergeSort fun _ _ _ _ => rfl

theorem keyOrder_byKey (h : es.Pairwise fun x y => Apart (key x) (key y)) :
    KeyOrder .canonical ((byKey key es).map key) := by
  have hsort : ((byKey key es).map key).Pairwise fun a b => (compare a b).isLE := by
    rw [map_byKey, FormatName.sortEntries_eq]
    exact FormatName.arrange_ascending _
  have hapart := ((byKey_perm key es).pairwise_iff Apart.symm).2 h
  have hkeys := pairwise_entries_iff (g := fun _ => []) hapart
  simp only [List.append_nil] at hkeys
  exact hkeys.1 hsort

/-- Sorting whole entries comes to sorting them by their keys. -/
theorem arrange_eq_byKey (h : es.Pairwise fun x y => Apart (key x) (key y)) :
    FormatName.canonical.arrange (es.map fun x => key x ++ rest x) =
      (byKey key es).map fun x => key x ++ rest x := by
  have hperm := byKey_perm key es
  have hapart := (hperm.pairwise_iff Apart.symm).2 h
  calc
    FormatName.canonical.arrange (es.map fun x => key x ++ rest x)
    _ = FormatName.canonical.arrange ((byKey key es).map fun x => key x ++ rest x) :=
      FormatName.arrange_eq_of_perm (hperm.symm.map _)
    _ = (byKey key es).map fun x => key x ++ rest x :=
      FormatName.arrange_of_keyOrder hapart (keyOrder_byKey h)

/-- The entries `zs` are `es` in the order in which the bytes of their keys ascend, which is the
order of those bytes alone. -/
structure InKeyOrder (key : γ → Bytes) (es zs : List γ) : Prop where
  entries : zs.Perm es
  keys : zs.map key = FormatName.canonical.format.sortEntries (es.map key)
  ascending : (zs.map key).Pairwise (compare · · = .lt)

/-- What a map writes is the list of its entries in the order of their keys. -/
theorem exists_inKeyOrder {put : γ → Encoding Unit} {P : γ → Prop} {r : γ → Nat}
    (hput : ∀ x ∈ es, Appends (put x) (P x) (r x) (key x ++ rest x))
    (hkeys : (∀ x ∈ es, P x) → es.Pairwise fun x y => Apart (key x) (key y)) {e e' : Encoder}
    (h : entries FormatName.canonical.format put es e = .ok () e') :
    ∃ zs, InKeyOrder key es zs ∧ list FormatName.canonical.format put zs e = .ok () e' ∧
      e'.buffer = e.buffer ++ FormatName.canonical.lengthBytes zs.length ++
        zs.flatMap fun x => key x ++ rest x := by
  have hperm := byKey_perm key es
  obtain ⟨⟨⟨hlen, hP⟩, hr⟩, rfl⟩ := (appends_entries .canonical hput e e').1 h
  have hapart := hkeys hP
  have hbytes : (FormatName.canonical.arrange (es.map fun x => key x ++ rest x)).flatten =
      (byKey key es).flatMap fun x => key x ++ rest x := by
    rw [arrange_eq_byKey hapart, List.flatMap_def]
  have hputs : ∀ x ∈ byKey key es, Appends (put x) (P x) (r x) (key x ++ rest x) :=
    fun x hx => hput x (hperm.mem_iff.1 hx)
  refine ⟨byKey key es, ⟨hperm, map_byKey key es, keyOrder_canonical.1 (keyOrder_byKey hapart)⟩,
    (appends_list .canonical hputs e _).2 ⟨⟨⟨?_, ?_⟩, ?_⟩, ?_⟩, ?_⟩
  · rwa [hperm.length_eq]
  · exact fun x hx => hP x (hperm.mem_iff.1 hx)
  · rwa [deepest_perm (hperm.map r)]
  · rw [hbytes, hperm.length_eq]
  · rw [hbytes, hperm.length_eq, List.append_assoc]

end Entries

namespace Schema

/-- Neither of two different keys has bytes that begin with those of the other, so that nothing
behind them counts when entries are compared. Hence a map or set whose keys are all different is
written as the list of its entries is, in the order of the bytes of the keys and whatever the
values. -/
theorem sorted_by_key {k : Schema} (ho : k.Ordered) (hs : k.Supported) :
    (∀ (n : FormatName) (x y : k.Val), k.Valid x → k.Valid y → x ≠ y →
      ∀ (e e' f f' : Encoder) (bs cs : Bytes),
        k.encode n.format x e = .ok () e' → e'.buffer = e.buffer ++ bs →
        k.encode n.format y f = .ok () f' → f'.buffer = f.buffer ++ cs →
        bs ≠ cs ∧ ¬ bs <+: cs ∧ ¬ cs <+: bs ∧
          ∀ s t : Bytes, Ord.compare (bs ++ s) (cs ++ t) = Ord.compare bs cs) ∧
    (∀ (it : Iteration) (v : Schema) (es : List (k.Val × v.Val)),
      (∀ p ∈ es, k.Valid p.1) → (es.map Prod.fst).Nodup →
      ∀ e e' : Encoder, (map it k v).encode .canonical es e = .ok () e' →
        ∃ zs, InKeyOrder (fun p => k.wire .canonical p.1) es zs ∧
          (seq (pair k v)).encode .canonical zs e = .ok () e' ∧
          e'.buffer = e.buffer ++ FormatName.canonical.lengthBytes zs.length ++
            zs.flatMap fun p => k.wire .canonical p.1 ++ v.wire .canonical p.2) ∧
    ∀ (it : Iteration) (ks : List k.Val), (∀ x ∈ ks, k.Valid x) → ks.Nodup →
      ∀ e e' : Encoder, (set it k).encode .canonical ks e = .ok () e' →
        ∃ zs, InKeyOrder (k.wire .canonical) ks zs ∧ (seq k).encode .canonical zs e = .ok () e' ∧
          e'.buffer = e.buffer ++ FormatName.canonical.lengthBytes zs.length ++
            zs.flatMap (k.wire .canonical) := by
  refine ⟨?_, ?_, ?_⟩
  · intro n x y hx hy hne e e' f f' bs cs hrun hbs hrun' hcs
    obtain ⟨⟨hm, -⟩, rfl⟩ := (appends_encode n k x e e').1 hrun
    obtain ⟨⟨hm', -⟩, rfl⟩ := (appends_encode n k y f f').1 hrun'
    obtain rfl := List.append_cancel_left hbs
    obtain rfl := List.append_cancel_left hcs
    have hapart := wire_apart n ho hs hx hy hm hm' hne
    exact ⟨hapart.ne, hapart.1, hapart.2, compare_append hapart⟩
  · intro it v es hv hd e e' hrun
    have hput := fun p (_ : p ∈ es) =>
      (appends_encode .canonical k p.1).bind (appends_encode .canonical v p.2)
    exact exists_inKeyOrder hput (fun hm =>
      pairwise_wire_apart .canonical ho hs hv (List.pairwise_map.1 hd) fun p hp => (hm p hp).1) hrun
  · intro it ks hv hd e e' hrun
    have hput : ∀ x ∈ ks, Appends (k.encode FormatName.canonical.format x)
        (k.Short FormatName.canonical.format.maxLength x) (k.depth x) (k.wire .canonical x ++ []) :=
      fun x _ => (appends_encode .canonical k x).mono Iff.rfl rfl (List.append_nil _).symm
    obtain ⟨zs, hzs, hlist, hbuf⟩ := exists_inKeyOrder hput
      (pairwise_wire_apart .canonical ho hs hv hd) hrun
    simp only [List.append_nil] at hbuf
    exact ⟨zs, hzs, hlist, hbuf⟩

/-- Lists as keys, none of them in the order of its value. -/
theorem sorted_by_key_lists :
    (∀ s t : Bytes, Ord.compare ([1, 9] ++ s) ([2, 1, 9] ++ t) =
      Ord.compare ([1, 9] : Bytes) [2, 1, 9]) ∧
    ∃ zs, InKeyOrder (fun p => (seq (scalar (.uint .w8))).wire .canonical p.1)
        [([1#8, 9#8], true), ([9#8], false), ([], true)] zs ∧
      (seq (pair (seq (scalar (.uint .w8))) (scalar .bool))).encode .canonical zs ⟨[7], .full 2⟩ =
        .ok () ⟨[7, 3, 0, 1, 1, 9, 0, 2, 1, 9, 1], .full 2⟩ := by
  have ho : (seq (scalar (.uint .w8))).Ordered := by decide
  have hs : (seq (scalar (.uint .w8))).Supported := by decide
  have hv : ∀ x : List (BitVec 8), (seq (scalar (.uint .w8))).Valid x := fun _ _ _ => trivial
  have hne : ([9#8] : List (BitVec 8)) ≠ [1#8, 9#8] := by decide
  have hd : ([[1#8, 9#8], [9#8], []] : List (List (BitVec 8))).Nodup := by decide
  obtain ⟨hkeys, hmap, -⟩ := sorted_by_key ho hs
  constructor
  · exact (hkeys .canonical [9#8] [1#8, 9#8] (hv _) (hv _) hne ⟨[], .full 1⟩ ⟨[1, 9], .full 1⟩
      ⟨[], .full 1⟩ ⟨[2, 1, 9], .full 1⟩ [1, 9] [2, 1, 9] (by cbv) rfl (by cbv) rfl).2.2.2
  · obtain ⟨zs, hzs, hlist, -⟩ := hmap .unordered (scalar .bool)
      [([1#8, 9#8], true), ([9#8], false), ([], true)] (fun p _ => hv p.1) hd ⟨[7], .full 2⟩
      ⟨[7, 3, 0, 1, 1, 9, 0, 2, 1, 9, 1], .full 2⟩ (by cbv)
    exact ⟨zs, hzs, hlist⟩

end Schema

end WireCodec
