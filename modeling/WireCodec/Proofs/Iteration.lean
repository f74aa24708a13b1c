import WireCodec.Proofs.Encoding

/-!
# The order of iteration

Under the canonical format an encoding depends on the content of a value alone.
Two maps with the same entries go on the wire alike in whatever order they are
visited, and so do maps within maps, since values of the same content have the
same bytes, the same depth and lengths that are short alike.
-/
namespace WireCodec

theorem FormatName.arrange_eq_of_perm {es fs : List Bytes} (h : es.Perm fs) :
    canonical.arrange es = canonical.arrange fs := by
  have hp := ((arrange_perm canonical es).trans h).trans (arrange_perm canonical fs).symm
  exact hp.eq_of_pairwise' (arrange_ascending es) (arrange_ascending fs)

namespace Schema

/-- Two values that no canonical encoder tells apart, whatever depth it has left. -/
structure Alike (s t : Schema) (x : s.Val) (y : t.Val) : Prop where
  short : ∀ m, s.Short m x ↔ t.Short m y
  depth : s.depth x = t.depth y
  wire : s.wire .canonical x = t.wire .canonical y

theorem alike_pair {a b c d : Schema} {x : a.Val} {x' : b.Val} {y : c.Val} {y' : d.Val}
    (h : Alike a c x y) (h' : Alike b d x' y') : Alike (pair a b) (pair c d) (x, x') (y, y') where
  short m := and_congr (h.short m) (h'.short m)
  depth := congr (congrArg max h.depth) h'.depth
  wire := congr (congrArg HAppend.hAppend h.wire) h'.wire

section Lists

variable {α β : Type} {R : α → β → Prop} {xs : List α} {ys : List β} {P : Nat → α → Prop}
  {Q : Nat → β → Prop} {d : α → Nat} {d' : β → Nat} {w : α → Bytes} {w' : β → Bytes}

theorem alike_list (h : List.Forall₂ R xs ys)
    (hR : ∀ x y, R x y → (∀ m, P m x ↔ Q m y) ∧ d x = d' y ∧ w x = w' y) :
    (∀ m, (xs.length ≤ m ∧ ∀ x ∈ xs, P m x) ↔ ys.length ≤ m ∧ ∀ y ∈ ys, Q m y) ∧
      1 + deepest (xs.map d) = 1 + deepest (ys.map d') ∧
      FormatName.canonical.lengthBytes xs.length ++ xs.flatMap w =
        FormatName.canonical.lengthBytes ys.length ++ ys.flatMap w' := by
  have hu := UpToOrder.of_forall₂ h
  have hd := map_eq_of_forall₂ h fun x y hxy => (hR x y hxy).2.1
  have hw := map_eq_of_forall₂ h fun x y hxy => (hR x y hxy).2.2
  refine ⟨fun m => ?_, by rw [hd], by rw [hu.length_eq, List.flatMap_def, hw, ← List.flatMap_def]⟩
  rw [hu.length_eq, hu.forall_iff fun x y hxy => (hR x y hxy).1 m]

/-- The arranged entries of a collection do not tell in which order they came. -/
theorem alike_collection (h : UpToOrder R xs ys)
    (hR : ∀ x y, R x y → (∀ m, P m x ↔ Q m y) ∧ d x = d' y ∧ w x = w' y) :
    (∀ m, (xs.length ≤ m ∧ ∀ x ∈ xs, P m x) ↔ ys.length ≤ m ∧ ∀ y ∈ ys, Q m y) ∧
      1 + deepest (xs.map d) = 1 + deepest (ys.map d') ∧
      FormatName.canonical.lengthBytes xs.length ++
          (FormatName.canonical.arrange (xs.map w)).flatten =
        FormatName.canonical.lengthBytes ys.length ++
          (FormatName.canonical.arrange (ys.map w')).flatten := by
  have hd := deepest_perm (h.map_perm fun x y hxy => (hR x y hxy).2.1)
  have hw := FormatName.arrange_eq_of_perm (h.map_perm fun x y hxy => (hR x y hxy).2.2)
  refine ⟨fun m => ?_, by rw [hd], by rw [h.length_eq, hw]⟩
  rw [h.length_eq, h.forall_iff fun x y hxy => (hR x y hxy).1 m]

end Lists

theorem alike_of_same {s t : Schema} {x : s.Val} {y : t.Val} (h : Same s t x y) :
    Alike s t x y := by
  induction s generalizing t with
  | scalar a =>
    cases t with
    | scalar b =>
      obtain ⟨rfl, h⟩ := h
      cases h
      exact ⟨fun _ => Iff.rfl, rfl, rfl⟩
    | _ => exact h.elim
  | option s ih =>
    cases t with
    | option t =>
      cases h with
      | none => exact ⟨fun _ => Iff.rfl, rfl, rfl⟩
      | some h => exact ⟨(ih h).short, (ih h).depth, congrArg (1 :: ·) (ih h).wire⟩
    | _ => exact h.elim
  | boxed s ih =>
    cases t with
    | boxed t =>
      have ha := ih (t := t) h
      exact ⟨ha.short, ha.depth, ha.wire⟩
    | _ => exact h.elim
  | pair a b iha ihb =>
    cases t with
    | pair c d => exact alike_pair (iha h.1) (ihb h.2)
    | _ => exact h.elim
  | seq s ih =>
    cases t with
    | seq t =>
      have ha := alike_list h fun x y hxy => ⟨(ih hxy).short, (ih hxy).depth, (ih hxy).wire⟩
      exact ⟨ha.1, ha.2.1, ha.2.2⟩
    | _ => exact h.elim
  | map it k v ihk ihv =>
    cases t with
    | map it' l w =>
      have hR : ∀ (e : k.Val × v.Val) (f : l.Val × w.Val),
          Same k l e.1 f.1 ∧ Same v w e.2 f.2 → Alike (pair k v) (pair l w) e f :=
        fun e f hef => alike_pair (ihk hef.1) (ihv hef.2)
      have ha := alike_collection h fun e f hef =>
        ⟨(hR e f hef).short, (hR e f hef).depth, (hR e f hef).wire⟩
      exact ⟨ha.1, ha.2.1, ha.2.2⟩
    | _ => exact h.elim
  | set it k ih =>
    cases t with
    | set it' l =>
      have ha := alike_collection h fun x y hxy =>
        ⟨(ih hxy).short, (ih hxy).depth, (ih hxy).wire⟩
      exact ⟨ha.1, ha.2.1, ha.2.2⟩
    | _ => exact h.elim
  | framed s ih =>
    cases t with
    | framed t =>
      have ha := ih (t := t) h
      exact ⟨ha.short, congrArg (1 + ·) ha.depth, ha.wire⟩
    | _ => exact h.elim
  | choice count alt ih =>
    cases t with
    | choice count' alt' =>
      have ha := ih x.1 h.2
      refine ⟨ha.short, ha.depth, ?_⟩
      simp only [wire]
      rw [h.1, ha.wire]
    | _ => exact h.elim
  | tree =>
    cases t with
    | tree =>
      cases h
      exact ⟨fun _ => Iff.rfl, rfl, rfl⟩
    | _ => exact h.elim

theorem encode_iff_of_alike {s t : Schema} {x : s.Val} {y : t.Val} (h : Alike s t x y)
    {e e' : Encoder} : s.encode .canonical x e = .ok () e' ↔ t.encode .canonical y e = .ok () e' := by
  have hx := appends_encode .canonical s x e e'
  have hy := appends_encode .canonical t y e e'
  rw [← h.short, ← h.depth, ← h.wire] at hy
  exact hx.trans hy.symm

/-- Encoding takes no notice of the order of iteration: not for the entries of one map, and
not for values of the same content, whichever kinds of maps and sets they are made of. -/
theorem encode_same :
    (∀ (k v : Schema) (es fs : List (k.Val × v.Val)), es.Perm fs → ∀ e e' : Encoder,
      Encoder.entries .canonical (fun p => do
          k.encode .canonical p.1
          v.encode .canonical p.2) es e = .ok () e' ↔
        Encoder.entries .canonical (fun p => do
          k.encode .canonical p.1
          v.encode .canonical p.2) fs e = .ok () e') ∧
    ∀ (s t : Schema) (x : s.Val) (y : t.Val), Same s t x y → ∀ e e' : Encoder,
      s.encode .canonical x e = .ok () e' ↔ t.encode .canonical y e = .ok () e' := by
  constructor
  · intro k v es fs h e e'
    have hsame : Same (map .unordered k v) (map .unordered k v) es fs :=
      UpToOrder.of_perm (fun p => ⟨same_refl k p.1, same_refl v p.2⟩) h
    exact encode_iff_of_alike (alike_of_same hsame)
  · intro s t x y h e e'
    exact encode_iff_of_alike (alike_of_same h)

/-- What an unordered map and the unordered set in it visit last, ascending ones visit first. -/
theorem encode_same_nested : ∀ e e' : Encoder,
    (map .unordered (scalar .char) (set .unordered (scalar (.uint .w16)))).encode .canonical
        [('b', [256#16, 1#16]), ('a', [])] e = .ok () e' ↔
      (map .ascending (scalar .char) (set .ascending (scalar (.uint .w16)))).encode .canonical
        [('a', []), ('b', [1#16, 256#16])] e = .ok () e' := by
  have hset : Same (set .unordered (scalar (.uint .w16))) (set .ascending (scalar (.uint .w16)))
      [256#16, 1#16] [1#16, 256#16] :=
    UpToOrder.of_perm (same_refl (scalar (.uint .w16))) (.swap ..)
  refine encode_same.2 _ _ _ _ ⟨_, .swap .., .cons ?_ (.cons ?_ .nil)⟩
  · exact ⟨same_refl (scalar .char) 'a', UpToOrder.of_forall₂ .nil⟩
  · exact ⟨same_refl (scalar .char) 'b', hset⟩

end Schema

end WireCodec
