import Mathlib
import WireCodec.Schema.Order
import WireCodec.Format.Basic

/-!
# Values and their content

What a schema asks of its values, and when two values have the same content. A
map is stored as the list of its entries in the order in which they are visited,
so one content has many lists; two values of equal content differ in nothing but
the order of entries, at whatever depth.

`depth` counts how many containers of a value are open at once and `Short` says
that a format can write all of its lengths.
-/
namespace WireCodec

/-- The same elements in some order, each of them up to `R`. -/
def UpToOrder {α β : Type} (R : α → β → Prop) (xs : List α) (ys : List β) : Prop :=
  ∃ zs, xs.Perm zs ∧ List.Forall₂ R zs ys

theorem map_eq_of_forall₂ {α β γ : Type} {R : α → β → Prop} {xs : List α} {ys : List β}
    {f : α → γ} {g : β → γ} (h : List.Forall₂ R xs ys) (hR : ∀ x y, R x y → f x = g y) :
    xs.map f = ys.map g := by
  induction h with
  | nil => rfl
  | cons hxy _ ih => rw [List.map_cons, List.map_cons, hR _ _ hxy, ih]

theorem exists_forall₂ {α β : Type} {R : α → β → Prop} {xs : List α} (h : ∀ x ∈ xs, ∃ y, R x y) :
    ∃ ys, List.Forall₂ R xs ys := by
  induction xs with
  | nil => exact ⟨[], .nil⟩
  | cons x xs ih =>
    rw [List.forall_mem_cons] at h
    obtain ⟨y, hy⟩ := h.1
    obtain ⟨ys, hys⟩ := ih h.2
    exact ⟨y :: ys, .cons hy hys⟩

/-- What holds of an element that is related to anything holds of every one. -/
theorem forall_of_forall₂ {α β : Type} {R : α → β → Prop} {P : α → Prop} {xs : List α}
    {ys : List β} (h : List.Forall₂ R xs ys) (hR : ∀ x y, R x y → P x) : ∀ x ∈ xs, P x :=
  ((List.forall₂_and_left xs ys).1 (h.imp fun x y hxy => ⟨hR x y hxy, hxy⟩)).1

theorem eq_of_forall₂ {α : Type} {R : α → α → Prop} {xs ys : List α} (h : List.Forall₂ R xs ys)
    (hR : ∀ x ∈ xs, ∀ y ∈ ys, R x y → x = y) : xs = ys := by
  induction h with
  | nil => rfl
  | cons hxy _ ih =>
    rw [hR _ List.mem_cons_self _ List.mem_cons_self hxy,
      ih fun x hx y hy => hR x (List.mem_cons_of_mem _ hx) y (List.mem_cons_of_mem _ hy)]

namespace UpToOrder

variable {α β γ : Type} {R : α → β → Prop} {xs : List α} {ys : List β}

theorem of_perm {R : α → α → Prop} (hR : ∀ x, R x x) {xs ys : List α} (h : xs.Perm ys) :
    UpToOrder R xs ys := ⟨ys, h, List.forall₂_same.2 fun x _ => hR x⟩

theorem length_eq (h : UpToOrder R xs ys) : xs.length = ys.length := by
  obtain ⟨zs, hp, hz⟩ := h
  rw [hp.length_eq, hz.length_eq]

/-- A reordering of the second list changes nothing. -/
theorem trans_perm (h : UpToOrder R xs ys) {ws : List β} (hw : ys.Perm ws) : UpToOrder R xs ws := by
  obtain ⟨zs, hp, hz⟩ := h
  have hc : (Relation.Comp (List.Forall₂ R) List.Perm) zs ws := ⟨ys, hz, hw⟩
  rw [List.forall₂_comp_perm_eq_perm_comp_forall₂] at hc
  obtain ⟨us, hu, hus⟩ := hc
  exact ⟨us, hp.trans hu, hus⟩

theorem of_forall₂ (h : List.Forall₂ R xs ys) : UpToOrder R xs ys := ⟨xs, .refl xs, h⟩

theorem map {α' β' : Type} {S : α' → β' → Prop} {f : α → α'} {g : β → β'} (h : UpToOrder R xs ys)
    (hR : ∀ x y, R x y → S (f x) (g y)) : UpToOrder S (xs.map f) (ys.map g) := by
  obtain ⟨zs, hp, hz⟩ := h
  refine ⟨zs.map f, hp.map f, ?_⟩
  rw [List.forall₂_map_left_iff, List.forall₂_map_right_iff]
  exact hz.imp hR

theorem imp {S : α → β → Prop} (h : UpToOrder R xs ys) (hR : ∀ x y, R x y → S x y) :
    UpToOrder S xs ys := by
  obtain ⟨zs, hp, hz⟩ := h
  exact ⟨zs, hp, hz.imp hR⟩

/-- What is equal for related elements is, over the whole lists, equal up to order. -/
theorem map_perm {f : α → γ} {g : β → γ} (h : UpToOrder R xs ys)
    (hR : ∀ x y, R x y → f x = g y) : (xs.map f).Perm (ys.map g) := by
  obtain ⟨zs, hp, hz⟩ := h
  rw [← map_eq_of_forall₂ hz hR]
  exact hp.map f

theorem forall_iff {P : α → Prop} {Q : β → Prop} (h : UpToOrder R xs ys)
    (hR : ∀ x y, R x y → (P x ↔ Q y)) : (∀ x ∈ xs, P x) ↔ ∀ y ∈ ys, Q y := by
  have hp := h.map_perm fun x y hxy => propext (hR x y hxy)
  calc
    (∀ x ∈ xs, P x) ↔ ∀ p ∈ xs.map P, p := by rw [List.forall_mem_map]
    _ ↔ ∀ p ∈ ys.map Q, p := forall_congr' fun p => by rw [hp.mem_iff]
    _ ↔ ∀ y ∈ ys, Q y := by rw [List.forall_mem_map]

end UpToOrder

def deepest (ds : List Nat) : Nat := ds.foldr max 0

@[simp] theorem deepest_nil : deepest [] = 0 := rfl
@[simp] theorem deepest_cons (d : Nat) (ds : List Nat) :
    deepest (d :: ds) = max d (deepest ds) := rfl

theorem deepest_le {ds : List Nat} {n : Nat} : deepest ds ≤ n ↔ ∀ d ∈ ds, d ≤ n := by
  induction ds with
  | nil => simp
  | cons d ds ih => rw [deepest_cons, Nat.max_le, ih, List.forall_mem_cons]

theorem deepest_map_le {α : Type} {f : α → Nat} {as : List α} {n : Nat} :
    deepest (as.map f) ≤ n ↔ ∀ a ∈ as, f a ≤ n := by
  rw [deepest_le, List.forall_mem_map]

theorem deepest_perm {ds es : List Nat} (h : ds.Perm es) : deepest ds = deepest es :=
  h.foldr_eq 0

mutual

def Tree.depth : Tree → Nat
  | .node ts => 1 + Tree.depthBelow ts

def Tree.depthBelow : List Tree → Nat
  | [] => 0
  | t :: ts => max t.depth (Tree.depthBelow ts)

end

mutual

/-- No node has more than `m` children. -/
def Tree.Short (m : Nat) : Tree → Prop
  | .node ts => ts.length ≤ m ∧ Tree.ShortBelow m ts

def Tree.ShortBelow (m : Nat) : List Tree → Prop
  | [] => True
  | t :: ts => t.Short m ∧ Tree.ShortBelow m ts

end

namespace Tree

theorem depth_node (ts : List Tree) : depth (.node ts) = 1 + deepest (ts.map depth) := by
  have h : depthBelow ts = deepest (ts.map depth) := by
    induction ts with
    | nil => rfl
    | cons t ts ih => simp [depthBelow, ih]
  rw [depth, h]

theorem short_node {m : Nat} {ts : List Tree} :
    Short m (.node ts) ↔ ts.length ≤ m ∧ ∀ t ∈ ts, Short m t := by
  have h : ShortBelow m ts ↔ ∀ t ∈ ts, Short m t := by
    induction ts with
    | nil => simp [ShortBelow]
    | cons t ts ih => simp [ShortBelow, ih]
  rw [Short, h]

/-- A property of trees that passes from the children to the node holds of all trees. -/
theorem induct {P : Tree → Prop} (h : ∀ ts, (∀ t ∈ ts, P t) → P (.node ts)) : ∀ t, P t :=
  @Tree.rec P (fun ts => ∀ t ∈ ts, P t) h (by simp) (by simp_all)

end Tree

/-- How the keys of a collection stand in its list: ascending, or just none of them twice. -/
def Iteration.Lists {α : Type} (cmp : α → α → Ordering) : Iteration → List α → Prop
  | ascending, ks => ks.Pairwise (cmp · · = .lt)
  | unordered, ks => ks.Pairwise (cmp · · ≠ .eq)

instance Iteration.decidableLists {α : Type} (cmp : α → α → Ordering) (it : Iteration) (ks : List α) :
    Decidable (it.Lists cmp ks) :=
  match it with
  | ascending => inferInstanceAs (Decidable (ks.Pairwise (cmp · · = .lt)))
  | unordered => inferInstanceAs (Decidable (ks.Pairwise (cmp · · ≠ .eq)))

def Scalar.Short (m : Nat) : (s : Scalar) → s.Val → Prop
  | text, s => (Utf8.encode s).length ≤ m
  | blob, (bs : Bytes) => bs.length ≤ m
  | _, _ => True

namespace Schema

/-- Values in which every collection is visited in ascending order. -/
def Ordered : Schema → Prop
  | scalar _ => True
  | option s => s.Ordered
  | boxed s => s.Ordered
  | pair a b => a.Ordered ∧ b.Ordered
  | seq s => s.Ordered
  | map it k v => it = .ascending ∧ k.Ordered ∧ v.Ordered
  | set it k => it = .ascending ∧ k.Ordered
  | framed s => s.Ordered
  | choice _ alt => ∀ i, (alt i).Ordered
  | tree => True

/-- No map or set occurs at any depth. -/
def MapFree : Schema → Prop
  | scalar _ => True
  | option s => s.MapFree
  | boxed s => s.MapFree
  | pair a b => a.MapFree ∧ b.MapFree
  | seq s => s.MapFree
  | map .. => False
  | set .. => False
  | framed s => s.MapFree
  | choice _ alt => ∀ i, (alt i).MapFree
  | tree => True

/-- The keys of every map and set are of an ordered kind, and a variant index has 32 bits. -/
def Supported : Schema → Prop
  | scalar _ => True
  | option s => s.Supported
  | boxed s => s.Supported
  | pair a b => a.Supported ∧ b.Supported
  | seq s => s.Supported
  | map _ k v => k.Ordered ∧ k.Supported ∧ v.Supported
  | set _ k => k.Ordered ∧ k.Supported
  | framed s => s.Supported
  | choice count alt => count ≤ 2 ^ 32 ∧ ∀ i, (alt i).Supported
  | tree => True

/-- The lists that stand for maps and sets are ones such a collection can be visited in. -/
def Valid : (s : Schema) → s.Val → Prop
  | scalar _, _ => True
  | option s, v => match v with
    | none => True
    | some x => s.Valid x
  | boxed s, v => s.Valid v
  | pair a b, v => a.Valid v.1 ∧ b.Valid v.2
  | seq s, (vs : List s.Val) => ∀ v ∈ vs, s.Valid v
  | map it k v, (es : List (k.Val × v.Val)) =>
      it.Lists k.compare (es.map Prod.fst) ∧ ∀ e ∈ es, k.Valid e.1 ∧ v.Valid e.2
  | set it k, (ks : List k.Val) => it.Lists k.compare ks ∧ ∀ x ∈ ks, k.Valid x
  | framed s, v => s.Valid v
  | choice _ alt, v => (alt v.1).Valid v.2
  | tree, _ => True

instance decidableOrdered : (s : Schema) → Decidable s.Ordered
  | scalar _ => .isTrue trivial
  | option s => s.decidableOrdered
  | boxed s => s.decidableOrdered
  | pair a b =>
    have := a.decidableOrdered
    have := b.decidableOrdered
    inferInstanceAs (Decidable (a.Ordered ∧ b.Ordered))
  | seq s => s.decidableOrdered
  | map it k v =>
    have := k.decidableOrdered
    have := v.decidableOrdered
    inferInstanceAs (Decidable (it = .ascending ∧ k.Ordered ∧ v.Ordered))
  | set it k =>
    have := k.decidableOrdered
    inferInstanceAs (Decidable (it = .ascending ∧ k.Ordered))
  | framed s => s.decidableOrdered
  | choice _ alt =>
    have := fun i => (alt i).decidableOrdered
    inferInstanceAs (Decidable (∀ i, (alt i).Ordered))
  | tree => .isTrue trivial

instance decidableMapFree : (s : Schema) → Decidable s.MapFree
  | scalar _ => .isTrue trivial
  | option s => s.decidableMapFree
  | boxed s => s.decidableMapFree
  | pair a b =>
    have := a.decidableMapFree
    have := b.decidableMapFree
    inferInstanceAs (Decidable (a.MapFree ∧ b.MapFree))
  | seq s => s.decidableMapFree
  | map .. => .isFalse id
  | set .. => .isFalse id
  | framed s => s.decidableMapFree
  | choice _ alt =>
    have := fun i => (alt i).decidableMapFree
    inferInstanceAs (Decidable (∀ i, (alt i).MapFree))
  | tree => .isTrue trivial

instance decidableSupported : (s : Schema) → Decidable s.Supported
  | scalar _ => .isTrue trivial
  | option s => s.decidableSupported
  | boxed s => s.decidableSupported
  | pair a b =>
    have := a.decidableSupported
    have := b.decidableSupported
    inferInstanceAs (Decidable (a.Supported ∧ b.Supported))
  | seq s => s.decidableSupported
  | map _ k v =>
    have := k.decidableSupported
    have := v.decidableSupported
    inferInstanceAs (Decidable (k.Ordered ∧ k.Supported ∧ v.Supported))
  | set _ k =>
    have := k.decidableSupported
    inferInstanceAs (Decidable (k.Ordered ∧ k.Supported))
  | framed s => s.decidableSupported
  | choice count alt =>
    have := fun i => (alt i).decidableSupported
    inferInstanceAs (Decidable (count ≤ 2 ^ 32 ∧ ∀ i, (alt i).Supported))
  | tree => .isTrue trivial

instance decidableValid : (s : Schema) → (v : s.Val) → Decidable (s.Valid v)
  | scalar _, _ => .isTrue trivial
  | option s, v => match v with
    | none => .isTrue trivial
    | some x => s.decidableValid x
  | boxed s, v => s.decidableValid v
  | pair a b, v =>
    have := a.decidableValid v.1
    have := b.decidableValid v.2
    inferInstanceAs (Decidable (a.Valid v.1 ∧ b.Valid v.2))
  | seq s, (vs : List s.Val) =>
    have := s.decidableValid
    inferInstanceAs (Decidable (∀ v ∈ vs, s.Valid v))
  | map it k v, (es : List (k.Val × v.Val)) =>
    have := k.decidableValid
    have := v.decidableValid
    inferInstanceAs (Decidable (it.Lists k.compare (es.map Prod.fst) ∧
      ∀ e ∈ es, k.Valid e.1 ∧ v.Valid e.2))
  | set it k, (ks : List k.Val) =>
    have := k.decidableValid
    inferInstanceAs (Decidable (it.Lists k.compare ks ∧ ∀ x ∈ ks, k.Valid x))
  | framed s, v => s.decidableValid v
  | choice _ alt, v => (alt v.1).decidableValid v.2
  | tree, _ => .isTrue trivial

/-- Equal content: the order of the entries of a map or set does not count, nor whether it
is a kind of map that keeps one. -/
def Same : (s t : Schema) → s.Val → t.Val → Prop
  | scalar a, scalar b, x, y => a = b ∧ HEq x y
  | option s, option t, x, y => Option.Rel (Same s t) x y
  | boxed s, boxed t, x, y => Same s t x y
  | pair a b, pair c d, x, y => Same a c x.1 y.1 ∧ Same b d x.2 y.2
  | seq s, seq t, xs, ys => List.Forall₂ (Same s t) xs ys
  | map _ k v, map _ l w, es, fs =>
      UpToOrder (fun e f => Same k l e.1 f.1 ∧ Same v w e.2 f.2) es fs
  | set _ k, set _ l, xs, ys => UpToOrder (Same k l) xs ys
  | framed s, framed t, x, y => Same s t x y
  | choice _ alt, choice _ alt', x, y => x.1.val = y.1.val ∧ Same (alt x.1) (alt' y.1) x.2 y.2
  | tree, tree, x, y => x = y
  | _, _, _, _ => False

theorem same_refl (s : Schema) (v : s.Val) : Same s s v v := by
  induction s with
  | scalar s => exact ⟨rfl, HEq.rfl⟩
  | option s ih =>
    cases v with
    | none => exact .none
    | some x => exact .some (ih x)
  | boxed s ih => exact ih v
  | pair a b iha ihb => exact ⟨iha v.1, ihb v.2⟩
  | seq s ih => exact List.forall₂_same.2 fun x _ => ih x
  | map it k t ihk iht => exact UpToOrder.of_perm (fun e => ⟨ihk e.1, iht e.2⟩) (.refl v)
  | set it k ih => exact UpToOrder.of_perm ih (.refl v)
  | framed s ih => exact ih v
  | choice count alt ih => exact ⟨rfl, ih v.1 v.2⟩
  | tree => rfl

/-- How many containers are open at once where the value is deepest. -/
def depth : (s : Schema) → s.Val → Nat
  | scalar _, _ => 0
  | option s, v => match v with
    | none => 0
    | some x => s.depth x
  | boxed s, v => s.depth v
  | pair a b, v => max (a.depth v.1) (b.depth v.2)
  | seq s, vs => 1 + deepest (vs.map s.depth)
  | map _ k v, es => 1 + deepest (es.map fun e => max (k.depth e.1) (v.depth e.2))
  | set _ k, ks => 1 + deepest (ks.map k.depth)
  | framed s, v => 1 + s.depth v
  | choice _ alt, v => (alt v.1).depth v.2
  | tree, t => t.depth

/-- No length within the value exceeds `m`. -/
def Short (m : Nat) : (s : Schema) → s.Val → Prop
  | scalar s, v => s.Short m v
  | option s, v => match v with
    | none => True
    | some x => s.Short m x
  | boxed s, v => s.Short m v
  | pair a b, v => a.Short m v.1 ∧ b.Short m v.2
  | seq s, (vs : List s.Val) => vs.length ≤ m ∧ ∀ v ∈ vs, s.Short m v
  | map _ k v, (es : List (k.Val × v.Val)) =>
      es.length ≤ m ∧ ∀ e ∈ es, k.Short m e.1 ∧ v.Short m e.2
  | set _ k, (ks : List k.Val) => ks.length ≤ m ∧ ∀ x ∈ ks, k.Short m x
  | framed s, v => s.Short m v
  | choice _ alt, v => (alt v.1).Short m v.2
  | tree, t => t.Short m

end Schema

end WireCodec
