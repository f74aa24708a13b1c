import WireCodec.Proofs.Grammar

/-!
# Entries in the order of their keys

Entries are sorted as whole byte strings, key bytes and value bytes together, while
a decoder compares key bytes alone. The two orders agree because neither of two keys
is the beginning of the other, so that the comparison is decided before a value is
reached. Sorted entries therefore pass the check on their keys, and entries that
pass it are sorted.
-/
namespace WireCodec

namespace Bytes

/-- Neither of two byte strings begins with the other. -/
def Apart (a b : Bytes) : Prop := ¬ a <+: b ∧ ¬ b <+: a

theorem Apart.symm {a b : Bytes} (h : Apart a b) : Apart b a := ⟨h.2, h.1⟩

theorem Apart.ne {a b : Bytes} (h : Apart a b) : a ≠ b := by
  rintro rfl
  exact h.1 (List.prefix_refl a)

/-- What stands behind them does not matter to the order of two that are apart. -/
theorem compare_append {a b : Bytes} (h : Apart a b) (x y : Bytes) :
    compare (a ++ x) (b ++ y) = compare a b := by
  induction a generalizing b with
  | nil => exact absurd List.nil_prefix h.1
  | cons a as ih =>
    cases b with
    | nil => exact absurd List.nil_prefix h.2
    | cons b bs =>
      rw [List.cons_append, List.cons_append, List.compare_cons_cons, List.compare_cons_cons]
      by_cases hab : a = b
      · subst hab
        rw [ih ⟨fun hp => h.1 (List.cons_prefix_cons.2 ⟨rfl, hp⟩),
          fun hp => h.2 (List.cons_prefix_cons.2 ⟨rfl, hp⟩)⟩]
      · have hne : compare a b ≠ .eq := fun he => hab (Std.LawfulEqOrd.eq_of_compare he)
        cases hc : compare a b with
        | eq => exact absurd hc hne
        | lt => rfl
        | gt => rfl

theorem compare_append_isLE {a b : Bytes} (h : Apart a b) (x y : Bytes) :
    (compare (a ++ x) (b ++ y)).isLE ↔ compare a b = .lt := by
  rw [compare_append h]
  have hne : compare a b ≠ .eq := fun he => h.ne (Std.LawfulEqOrd.eq_of_compare he)
  cases hc : compare a b with
  | eq => exact absurd hc hne
  | lt => exact ⟨fun _ => rfl, fun _ => rfl⟩
  | gt => exact ⟨nofun, nofun⟩

end Bytes

open Bytes Grammar

theorem keyOrder_canonical_isChain {ks : List Bytes} :
    KeyOrder .canonical ks ↔ ks.IsChain fun a b => compare a b = .lt := by
  have hcheck : ∀ a b : Bytes, FormatName.canonical.format.checkKeyOrder a b = .ok () ↔
      compare a b = .lt := by
    intro a b
    simp only [FormatName.format, Format.canonical, Format.Canonical.checkKeyOrder]
    split <;> simp_all
  simp only [KeyOrder, hcheck]

theorem keyOrder_canonical {ks : List Bytes} :
    KeyOrder .canonical ks ↔ ks.Pairwise fun a b => compare a b = .lt := by
  have htrans : Trans (fun a b : Bytes => compare a b = .lt) (fun a b => compare a b = .lt)
      fun a b => compare a b = .lt := ⟨Std.TransCmp.lt_trans⟩
  rw [keyOrder_canonical_isChain]
  exact List.isChain_iff_pairwise

theorem keyOrder_fast (ks : List Bytes) : KeyOrder .fast ks := by
  induction ks with
  | nil => exact .nil
  | cons k ks ih =>
    cases ks with
    | nil => exact .singleton k
    | cons l ks => exact .cons_cons rfl ih

section Entries

variable {γ : Type} {es : List γ} {f g : γ → Bytes}

/-- Whole entries are in order just where their keys are. -/
theorem pairwise_entries_iff (h : es.Pairwise fun x y => Apart (f x) (f y)) :
    (es.map fun x => f x ++ g x).Pairwise (fun a b => (compare a b).isLE) ↔
      KeyOrder .canonical (es.map f) := by
  rw [keyOrder_canonical, List.pairwise_map, List.pairwise_map]
  constructor
  · intro hs
    exact (hs.and h).imp fun hxy => (compare_append_isLE hxy.2 _ _).1 hxy.1
  · intro hs
    exact (hs.and h).imp fun hxy => (compare_append_isLE hxy.2 _ _).2 hxy.1

/-- Arranged entries pass the check on their keys. -/
theorem FormatName.exists_arranged (n : FormatName) (h : es.Pairwise fun x y => Apart (f x) (f y)) :
    ∃ zs : List γ, zs.Perm es ∧
      n.arrange (es.map fun x => f x ++ g x) = zs.map (fun x => f x ++ g x) ∧ KeyOrder n (zs.map f) := by
  cases n with
  | canonical =>
    have hmap := List.map_insertionSort
      (fun x y : γ => (compare (f x ++ g x) (f y ++ g y)).isLE = true)
      (fun a b : Bytes => (compare a b).isLE = true) (fun x => f x ++ g x) es fun _ _ _ _ => Iff.rfl
    have hsort := List.pairwise_insertionSort (fun a b : Bytes => (compare a b).isLE = true)
      (es.map fun x => f x ++ g x)
    rw [← hmap] at hsort
    have hperm := List.perm_insertionSort
      (fun x y : γ => (compare (f x ++ g x) (f y ++ g y)).isLE = true) es
    refine ⟨_, hperm, hmap.symm, (pairwise_entries_iff ?_).1 hsort⟩
    exact (hperm.pairwise_iff Apart.symm).2 h
  | fast => exact ⟨es, .refl es, rfl, keyOrder_fast _⟩

/-- Entries whose keys pass the check are arranged already. -/
theorem FormatName.arrange_of_keyOrder (h : es.Pairwise fun x y => Apart (f x) (f y))
    (hk : KeyOrder .canonical (es.map f)) :
    canonical.arrange (es.map fun x => f x ++ g x) = es.map fun x => f x ++ g x :=
  ((pairwise_entries_iff h).2 hk).insertionSort_eq

end Entries

end WireCodec
