import WireCodec.Proofs.Values
import WireCodec.Schema.Entries

/-!
# The order of keys

The order on the values of a schema is total, and values that compare as equal are
equal. So entries under distinct keys are collected without loss, in ascending
order of the keys, and that order determines the list.
-/
namespace WireCodec

/-- A comparison that is transitive and under which only equal things are equal. -/
structure TotalOrder {α : Type} (cmp : α → α → Ordering) : Prop
  extends Std.TransCmp cmp, Std.LawfulEqCmp cmp

namespace TotalOrder

variable {α β : Type}

theorem of_ord [Ord α] [Std.TransOrd α] [Std.LawfulEqOrd α] :
    TotalOrder (compare : α → α → Ordering) :=
  { (inferInstance : Std.TransOrd α), (inferInstance : Std.LawfulEqOrd α) with }

theorem transCmp_comap {cmp : β → β → Ordering} (h : Std.TransCmp cmp) (f : α → β) :
    Std.TransCmp fun a b => cmp (f a) (f b) where
  eq_swap := h.eq_swap
  isLE_trans := h.isLE_trans

/-- Things compare as their images do. -/
theorem comap {cmp : β → β → Ordering} (h : TotalOrder cmp) {f : α → β}
    (hf : ∀ a b, f a = f b → a = b) : TotalOrder fun a b => cmp (f a) (f b) :=
  { transCmp_comap h.toTransCmp f with
    compare_self := h.compare_self
    eq_of_compare := fun hab => hf _ _ (h.eq_of_compare hab) }

theorem list {cmp : α → α → Ordering} (h : TotalOrder cmp) : TotalOrder (List.compareLex cmp) := by
  have := h.toTransCmp
  have := h.toLawfulEqCmp
  exact { (inferInstance : Std.TransCmp (List.compareLex cmp)),
    (inferInstance : Std.LawfulEqCmp (List.compareLex cmp)) with }

/-- Only one arrangement of a list is strictly ascending. -/
theorem eq_of_perm {γ : Type} {cmp : α → α → Ordering} (h : TotalOrder cmp) {f : γ → α}
    {xs ys : List γ} (hx : (xs.map f).Pairwise (cmp · · = .lt))
    (hy : (ys.map f).Pairwise (cmp · · = .lt)) (hp : xs.Perm ys) : xs = ys := by
  have := h.toTransCmp
  refine hp.eq_of_pairwise (fun x y _ _ hxy hyx => ?_) (List.pairwise_map.1 hx)
    (List.pairwise_map.1 hy)
  exact absurd hyx (Std.OrientedCmp.not_lt_of_lt hxy)

end TotalOrder

mutual

/-- Around the tree: 1 on the way down to a child, 0 on the way up from a node. -/
def Tree.walk : Tree → List Nat
  | .node ts => Tree.walkBelow ts

def Tree.walkBelow : List Tree → List Nat
  | [] => [0]
  | t :: ts => 1 :: (t.walk ++ Tree.walkBelow ts)

end

namespace Tree

/-- Trees compare as the walks around them, whatever comes behind the walks. -/
theorem compare_walk (a b : Tree) (x y : List Nat) :
    Ord.compare (a.walk ++ x) (b.walk ++ y) = (a.compare b).then (Ord.compare x y) := by
  induction a using Tree.induct generalizing b x y with
  | h as ih =>
    obtain ⟨bs⟩ := b
    rw [walk, walk, compare]
    induction as generalizing bs with
    | nil => cases bs <;> rfl
    | cons a as ih' =>
      cases bs with
      | nil => rfl
      | cons b bs =>
        have ihs := ih' (fun t ht => ih t (List.mem_cons_of_mem a ht)) bs
        rw [walkBelow, walkBelow, compareForest, List.cons_append, List.cons_append,
          List.compare_cons_cons, List.append_assoc, List.append_assoc, ih a List.mem_cons_self, ihs,
          Ordering.then_assoc]
        rfl

theorem eq_of_compare {a b : Tree} (h : a.compare b = .eq) : a = b := by
  induction a using Tree.induct generalizing b with
  | h as ih =>
    obtain ⟨bs⟩ := b
    rw [compare] at h
    apply congrArg node
    induction as generalizing bs with
    | nil => cases bs with
      | nil => rfl
      | cons b bs => cases h
    | cons a as ih' =>
      cases bs with
      | nil => cases h
      | cons b bs =>
        rw [compareForest, Ordering.then_eq_eq] at h
        rw [ih a List.mem_cons_self h.1, ih' (fun t ht => ih t (List.mem_cons_of_mem a ht)) bs h.2]

theorem totalOrder_compare : TotalOrder Tree.compare := by
  have hw : ∀ a b : Tree, a.compare b = Ord.compare a.walk b.walk := by
    intro a b
    have h := compare_walk a b [] []
    rw [List.append_nil, List.append_nil] at h
    rw [h]
    exact Ordering.then_eq.symm
  have ht : Std.TransCmp fun a b : Tree => Ord.compare a.walk b.walk :=
    TotalOrder.transCmp_comap inferInstance walk
  simp only [← hw] at ht
  exact { ht with compare_self := Std.ReflCmp.compare_self, eq_of_compare := eq_of_compare }

end Tree

namespace Schema

theorem totalOrder_scalar (s : Scalar) : TotalOrder s.compare := by
  cases s with
  | unit =>
    exact {
      eq_swap := rfl
      isLE_trans := fun _ _ => rfl
      compare_self := rfl
      eq_of_compare := fun _ => rfl }
  | bool => exact TotalOrder.of_ord (α := Bool)
  | uint w => exact TotalOrder.of_ord.comap fun _ _ => BitVec.eq_of_toNat_eq
  | int w => exact TotalOrder.of_ord.comap fun _ _ => BitVec.eq_of_toInt_eq
  | float p => exact TotalOrder.of_ord.comap fun _ _ => BitVec.eq_of_toNat_eq
  | char => exact TotalOrder.of_ord (α := Char)
  | text => exact TotalOrder.of_ord.comap fun _ _ => String.toList_inj.1
  | blob => exact TotalOrder.of_ord (α := Bytes)

variable {α β : Type}

theorem totalOrder_option {cmp : α → α → Ordering} (h : TotalOrder cmp) :
    TotalOrder (compareOption cmp) := by
  have hl : ∀ x y, compareOption cmp x y = List.compareLex cmp x.toList y.toList := by
    intro x y
    cases x with
    | none => cases y <;> rfl
    | some x =>
      cases y with
      | none => rfl
      | some y =>
        exact (List.compareLex_cons_cons.trans Ordering.then_eq).symm
  have ho := h.list.comap (f := Option.toList) fun x y hxy => by cases x <;> cases y <;> simp_all
  simp only [← hl] at ho
  exact ho

theorem totalOrder_pair {cmp₁ : α → α → Ordering} {cmp₂ : β → β → Ordering} (h₁ : TotalOrder cmp₁)
    (h₂ : TotalOrder cmp₂) : TotalOrder (comparePair cmp₁ cmp₂) := by
  have := TotalOrder.transCmp_comap h₁.toTransCmp (Prod.fst (β := β))
  have := TotalOrder.transCmp_comap h₂.toTransCmp (Prod.snd (α := α))
  have ht : Std.TransCmp (comparePair cmp₁ cmp₂) :=
    inferInstanceAs (Std.TransCmp (compareLex (fun x y : α × β => cmp₁ x.1 y.1)
      fun x y => cmp₂ x.2 y.2))
  refine { ht with compare_self := Std.ReflCmp.compare_self, eq_of_compare := fun h => ?_ }
  obtain ⟨hfst, hsnd⟩ := Ordering.then_eq_eq.1 h
  exact Prod.ext (h₁.eq_of_compare hfst) (h₂.eq_of_compare hsnd)

theorem compare_choice_of_ne {count : Nat} {alt : Fin count → Schema} {i j : Fin count} (h : i ≠ j)
    (x : (alt i).Val) (y : (alt j).Val) :
    (choice count alt).compare ⟨i, x⟩ ⟨j, y⟩ = Ord.compare i j := dif_neg h

theorem compare_choice_self {count : Nat} {alt : Fin count → Schema} (i : Fin count)
    (x y : (alt i).Val) : (choice count alt).compare ⟨i, x⟩ ⟨i, y⟩ = (alt i).compare x y := dif_pos rfl

theorem totalOrder_choice {count : Nat} {alt : Fin count → Schema}
    (h : ∀ i, TotalOrder (alt i).compare) : TotalOrder (choice count alt).compare where
  eq_swap := by
    rintro ⟨i, x⟩ ⟨j, y⟩
    by_cases hij : i = j
    · subst hij
      rw [compare_choice_self, compare_choice_self]
      exact (h i).eq_swap
    · rw [compare_choice_of_ne hij, compare_choice_of_ne (Ne.symm hij)]
      exact Std.OrientedOrd.eq_swap
  isLE_trans := by
    rintro ⟨i, x⟩ ⟨j, y⟩ ⟨k, z⟩ hxy hyz
    by_cases hij : i = j
    · subst hij
      by_cases hik : i = k
      · subst hik
        rw [compare_choice_self] at hxy hyz ⊢
        exact (h i).isLE_trans hxy hyz
      · rw [compare_choice_of_ne hik] at hyz ⊢
        exact hyz
    · rw [compare_choice_of_ne hij] at hxy
      by_cases hjk : j = k
      · subst hjk
        rw [compare_choice_of_ne hij]
        exact hxy
      · rw [compare_choice_of_ne hjk] at hyz
        by_cases hik : i = k
        · subst hik
          have heq := Std.OrientedCmp.isLE_antisymm hxy hyz
          exact absurd (Std.LawfulEqOrd.eq_of_compare heq) hij
        · rw [compare_choice_of_ne hik]
          exact Std.TransOrd.isLE_trans hxy hyz
  compare_self := by
    rintro ⟨i, x⟩
    rw [compare_choice_self]
    exact (h i).compare_self
  eq_of_compare := by
    rintro ⟨i, x⟩ ⟨j, y⟩ hxy
    by_cases hij : i = j
    · subst hij
      rw [compare_choice_self] at hxy
      rw [(h i).eq_of_compare hxy]
    · rw [compare_choice_of_ne hij] at hxy
      exact absurd (Std.LawfulEqOrd.eq_of_compare hxy) hij

/-- The order of keys is total at every schema, so keys that compare as equal are the same key. -/
theorem totalOrder_compare (s : Schema) : TotalOrder s.compare := by
  induction s with
  | scalar s => exact totalOrder_scalar s
  | option s ih => exact totalOrder_option ih
  | boxed s ih => exact ih
  | pair a b iha ihb => exact totalOrder_pair iha ihb
  | seq s ih => exact ih.list
  | map it k v ihk ihv => exact (totalOrder_pair ihk ihv).list
  | set it k ih => exact ih.list
  | framed s ih => exact ih
  | choice count alt ih => exact totalOrder_choice ih
  | tree => exact Tree.totalOrder_compare

end Schema

namespace Entries

variable {α β : Type} {cmp : α → α → Ordering} {k : α} {v : β} {es fs : List (α × β)}

theorem insert_perm (h : ∀ e ∈ es, cmp k e.1 ≠ .eq) : (insert cmp k v es).Perm ((k, v) :: es) := by
  induction es with
  | nil => exact .refl _
  | cons e es ih =>
    rw [List.forall_mem_cons] at h
    rw [insert]
    split
    · exact .refl _
    · rename_i he
      exact absurd he h.1
    · exact ((ih h.2).cons e).trans (.swap ..)

theorem mem_insert {e : α × β} (h : e ∈ insert cmp k v es) : e.1 = k ∨ ∃ f ∈ es, e.1 = f.1 := by
  induction es with
  | nil => exact .inl (congrArg Prod.fst (List.mem_singleton.1 h))
  | cons f es ih =>
    rw [insert] at h
    split at h
    · rcases List.mem_cons.1 h with rfl | h
      · exact .inl rfl
      · exact .inr ⟨e, h, rfl⟩
    · rcases List.mem_cons.1 h with rfl | h
      · exact .inr ⟨f, List.mem_cons_self, rfl⟩
      · exact .inr ⟨e, List.mem_cons_of_mem f h, rfl⟩
    · rcases List.mem_cons.1 h with rfl | h
      · exact .inr ⟨e, List.mem_cons_self, rfl⟩
      · obtain he | ⟨g, hg, he⟩ := ih h
        · exact .inl he
        · exact .inr ⟨g, List.mem_cons_of_mem f hg, he⟩

/-- Entries in strictly ascending order of their keys. -/
def Ascending (cmp : α → α → Ordering) (es : List (α × β)) : Prop :=
  es.Pairwise fun e f => cmp e.1 f.1 = .lt

theorem insert_ascending (ht : TotalOrder cmp) (h : Ascending cmp es) :
    Ascending cmp (insert cmp k v es) := by
  have := ht.toTransCmp
  induction es with
  | nil => exact List.pairwise_singleton _ _
  | cons e es ih =>
    obtain ⟨he, hes⟩ := List.pairwise_cons.1 h
    rw [insert]
    split
    · rename_i hk
      refine List.pairwise_cons.2 ⟨List.forall_mem_cons.2 ⟨hk, fun f hf => ?_⟩, h⟩
      exact Std.TransCmp.lt_trans hk (he f hf)
    · exact List.pairwise_cons.2 ⟨he, hes⟩
    · rename_i hk
      refine List.pairwise_cons.2 ⟨fun f hf => ?_, ih hes⟩
      obtain hf | ⟨g, hg, hf⟩ := mem_insert hf
      · rw [hf]
        exact Std.OrientedCmp.gt_iff_lt.1 hk
      · rw [hf]
        exact he g hg

/-- However entries come in, they are collected in ascending order. -/
theorem ofList_ascending (ht : TotalOrder cmp) (es : List (α × β)) :
    Ascending cmp (ofList cmp es) := by
  have h : ∀ fs : List (α × β), Ascending cmp fs →
      Ascending cmp (es.foldl (fun m e => insert cmp e.1 e.2 m) fs) := by
    induction es with
    | nil => exact fun fs hfs => hfs
    | cons e es ih => exact fun fs hfs => ih _ (insert_ascending ht hfs)
  exact h [] List.Pairwise.nil

/-- Entries under keys that are all distinct are only put into another order. -/
theorem ofList_perm (ht : TotalOrder cmp) (h : es.Pairwise fun e f => cmp e.1 f.1 ≠ .eq) :
    (ofList cmp es).Perm es := by
  have := ht.toTransCmp
  have hsymm : ∀ {e f : α × β}, cmp e.1 f.1 ≠ .eq → cmp f.1 e.1 ≠ .eq :=
    fun hef hfe => hef (Std.OrientedCmp.eq_symm hfe)
  have hfold : ∀ fs : List (α × β), (fs ++ es).Pairwise (fun e f => cmp e.1 f.1 ≠ .eq) →
      (es.foldl (fun m e => insert cmp e.1 e.2 m) fs).Perm (fs ++ es) := by
    clear h
    induction es with
    | nil =>
      intro fs _
      rw [List.append_nil]
      exact .refl fs
    | cons e es ih =>
      intro fs h
      have hmid : (fs ++ e :: es).Perm (e :: (fs ++ es)) := List.perm_middle
      have hne := (hmid.pairwise_iff hsymm).1 h
      have hins : (insert cmp e.1 e.2 fs).Perm (e :: fs) := insert_perm fun f hf =>
        (List.pairwise_cons.1 hne).1 f (List.mem_append_left es hf)
      have hperm := hins.append_right es
      exact (ih _ ((hperm.pairwise_iff hsymm).2 hne)).trans (hperm.trans hmid.symm)
  exact hfold [] h

/-- Inserting replaces the entry under the key and keeps all others. -/
theorem mem_insert_iff (ht : TotalOrder cmp) (h : Ascending cmp es) {e : α × β} :
    e ∈ insert cmp k v es ↔ e = (k, v) ∨ e ∈ es ∧ e.1 ≠ k := by
  have := ht.toTransCmp
  have hne : ∀ {x y : α}, cmp x y = .lt → x ≠ y := by
    rintro x _ hlt rfl
    rw [ht.compare_self] at hlt
    cases hlt
  induction es with
  | nil => simp [insert]
  | cons f es ih =>
    obtain ⟨hf, hes⟩ := List.pairwise_cons.1 h
    rw [insert]
    split
    · rename_i hk
      have habove : ∀ g ∈ f :: es, g.1 ≠ k := by
        refine List.forall_mem_cons.2 ⟨(hne hk).symm, fun g hg => ?_⟩
        exact (hne (Std.TransCmp.lt_trans hk (hf g hg))).symm
      rw [List.mem_cons]
      exact or_congr Iff.rfl (and_iff_left_of_imp (habove e)).symm
    · rename_i hk
      obtain rfl := ht.eq_of_compare hk
      have habove : ∀ g ∈ es, g.1 ≠ f.1 := fun g hg => (hne (hf g hg)).symm
      rw [List.mem_cons, List.mem_cons]
      refine or_congr Iff.rfl ⟨fun he => ⟨.inr he, habove e he⟩, fun he => ?_⟩
      obtain ⟨rfl | he, hek⟩ := he
      · exact absurd rfl hek
      · exact he
    · rename_i hk
      have hfk : f.1 ≠ k := hne (Std.OrientedCmp.gt_iff_lt.1 hk)
      rw [List.mem_cons, List.mem_cons]
      refine (or_congr Iff.rfl (ih hes)).trans ?_
      constructor
      · rintro (rfl | he | he)
        · exact .inr ⟨.inl rfl, hfk⟩
        · exact .inl he
        · exact .inr ⟨.inr he.1, he.2⟩
      · rintro (he | ⟨rfl | he, hek⟩)
        · exact .inr (.inl he)
        · exact .inl rfl
        · exact .inr (.inr ⟨he, hek⟩)

theorem ofList_concat (cmp : α → α → Ordering) (es : List (α × β)) (e : α × β) :
    ofList cmp (es ++ [e]) = insert cmp e.1 e.2 (ofList cmp es) := List.foldl_concat ..

/-- What is collected under a key is the last entry under it. -/
theorem mem_ofList (ht : TotalOrder cmp) {e : α × β} :
    e ∈ ofList cmp es ↔ ∃ xs ys, es = xs ++ e :: ys ∧ ∀ f ∈ ys, f.1 ≠ e.1 := by
  induction es using List.reverseRecOn with
  | nil => simp
  | append_singleton es f ih =>
    rw [ofList_concat, mem_insert_iff ht (ofList_ascending ht es), ih]
    constructor
    · rintro (rfl | ⟨⟨xs, ys, rfl, hys⟩, hf⟩)
      · exact ⟨es, [], rfl, by simp⟩
      · refine ⟨xs, ys ++ [f], by simp, fun g hg => ?_⟩
        rcases List.mem_append.1 hg with hg | hg
        · exact hys g hg
        · rw [List.mem_singleton.1 hg]
          exact hf.symm
    · rintro ⟨xs, ys, h, hys⟩
      cases ys using List.reverseRecOn with
      | nil => exact .inl (List.singleton_inj.1 (List.append_inj_right' h rfl)).symm
      | append_singleton ys g =>
        rw [← List.cons_append, ← List.append_assoc] at h
        obtain ⟨rfl, hg⟩ := List.append_inj' h rfl
        obtain rfl := List.singleton_inj.1 hg
        refine .inr ⟨⟨xs, ys, rfl, fun g hg => hys g (List.mem_append_left _ hg)⟩, ?_⟩
        exact (hys f (List.mem_append_right _ (List.mem_singleton_self f))).symm

theorem mem_of_mem_ofList (ht : TotalOrder cmp) {e : α × β} (h : e ∈ ofList cmp es) : e ∈ es := by
  obtain ⟨xs, ys, rfl, -⟩ := (mem_ofList ht).1 h
  exact List.mem_append_right xs List.mem_cons_self

/-- Collecting entries may lose some of them, and adds none. -/
theorem ofList_subperm (ht : TotalOrder cmp) (es : List (α × β)) :
    (ofList cmp es).Subperm es := by
  have hnodup : (ofList cmp es).Nodup := by
    apply (ofList_ascending ht es).imp
    intro e f hlt hef
    rw [hef, ht.compare_self] at hlt
    cases hlt
  exact hnodup.subperm fun e he => mem_of_mem_ofList ht he

theorem keysOfList_map_fst (cmp : α → α → Ordering) (es : List (α × Unit)) :
    keysOfList cmp (es.map (·.1)) = (ofList cmp es).map (·.1) := by
  rw [keysOfList, List.map_map]
  exact congrArg (fun es => (ofList cmp es).map (·.1)) (List.map_id es)

end Entries

end WireCodec
