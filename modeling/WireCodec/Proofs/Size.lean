import WireCodec.Proofs.Decoding
import WireCodec.Schema.Drawing

/-!
# Small inputs hold small values

Lengths on the wire may announce any number of elements, and only running out of input stops a
decoder that believes them. So what bounds the size of a value is that each of its elements,
however deep inside it, takes up a byte of its own. Elements of no bytes must be ruled out for
that; entries that are lost to a later one with the same key only make the value smaller.
-/
namespace WireCodec

open Grammar

mutual

/-- The nodes below the root. -/
def Tree.elements : Tree → Nat
  | .node ts => Tree.elementsBelow ts

def Tree.elementsBelow : List Tree → Nat
  | [] => 0
  | t :: ts => 1 + t.elements + Tree.elementsBelow ts

end

mutual

def Tree.nodes : Tree → Nat
  | .node ts => 1 + Tree.nodesBelow ts

def Tree.nodesBelow : List Tree → Nat
  | [] => 0
  | t :: ts => t.nodes + Tree.nodesBelow ts

end

namespace Tree

theorem elements_node (ts : List Tree) :
    elements (.node ts) = (ts.map fun t => 1 + t.elements).sum := by
  have h : elementsBelow ts = (ts.map fun t => 1 + t.elements).sum := by
    induction ts with
    | nil => rfl
    | cons t ts ih => rw [elementsBelow, ih, List.map_cons, List.sum_cons]
  rw [elements, h]

theorem nodes_node (ts : List Tree) : nodes (.node ts) = 1 + (ts.map nodes).sum := by
  have h : nodesBelow ts = (ts.map nodes).sum := by
    induction ts with
    | nil => rfl
    | cons t ts ih => rw [nodesBelow, ih, List.map_cons, List.sum_cons]
  rw [nodes, h]

theorem nodes_eq (t : Tree) : t.nodes = 1 + t.elements := by
  induction t using Tree.induct with
  | h ts ih => rw [nodes_node, elements_node, List.map_congr_left ih]

end Tree

theorem FormatName.variantBytes_ne_nil (n : FormatName) (i : Nat) : n.variantBytes i ≠ [] := by
  cases n with
  | canonical => exact Uleb128.groups_ne_nil _ _
  | fast => exact List.cons_ne_nil _ _

theorem Width.ofNat_ne_nil (w : Width) (x : Nat) : Bytes.ofNat w.bytes x ≠ [] := by
  cases w <;> exact List.cons_ne_nil _ _

theorem Scalar.wire_ne_nil (n : FormatName) {s : Scalar} (h : s ≠ .unit) (v : s.Val) :
    s.wire n v ≠ [] := by
  cases s with
  | unit => exact absurd rfl h
  | bool => exact List.cons_ne_nil _ _
  | uint w => exact w.ofNat_ne_nil _
  | int w => exact w.ofNat_ne_nil _
  | float p => exact p.width.ofNat_ne_nil _
  | char => exact (Utf8.encodeChar_eq v).symm.trans_ne (Utf8.encodeChar_ne_nil v)
  | text => exact List.append_ne_nil_of_left_ne_nil (n.lengthBytes_ne_nil _) _
  | blob => exact List.append_ne_nil_of_left_ne_nil (n.lengthBytes_ne_nil _) _

namespace Schema

/-- Values that take up no bytes. -/
def ZeroWidth : Schema → Prop
  | scalar s => s = .unit
  | boxed s => s.ZeroWidth
  | pair a b => a.ZeroWidth ∧ b.ZeroWidth
  | framed s => s.ZeroWidth
  | _ => False

/-- Every element of a list or set takes up bytes, and so does every entry of a map. -/
def Dense : Schema → Prop
  | scalar _ => True
  | option s => s.Dense
  | boxed s => s.Dense
  | pair a b => a.Dense ∧ b.Dense
  | seq s => ¬ s.ZeroWidth ∧ s.Dense
  | map _ k v => ¬ (k.ZeroWidth ∧ v.ZeroWidth) ∧ k.Dense ∧ v.Dense
  | set _ k => ¬ k.ZeroWidth ∧ k.Dense
  | framed s => s.Dense
  | choice _ alt => ∀ i, (alt i).Dense
  | tree => True

instance decidableZeroWidth : (s : Schema) → Decidable s.ZeroWidth
  | scalar s => inferInstanceAs (Decidable (s = .unit))
  | boxed s => s.decidableZeroWidth
  | pair a b =>
    have := a.decidableZeroWidth
    have := b.decidableZeroWidth
    inferInstanceAs (Decidable (a.ZeroWidth ∧ b.ZeroWidth))
  | framed s => s.decidableZeroWidth
  | option _ | seq _ | map .. | set .. | choice .. | tree => .isFalse id

instance decidableDense : (s : Schema) → Decidable s.Dense
  | scalar _ => .isTrue trivial
  | option s => s.decidableDense
  | boxed s => s.decidableDense
  | pair a b =>
    have := a.decidableDense
    have := b.decidableDense
    inferInstanceAs (Decidable (a.Dense ∧ b.Dense))
  | seq s =>
    have := s.decidableDense
    inferInstanceAs (Decidable (¬ s.ZeroWidth ∧ s.Dense))
  | map _ k v =>
    have := k.decidableDense
    have := v.decidableDense
    inferInstanceAs (Decidable (¬ (k.ZeroWidth ∧ v.ZeroWidth) ∧ k.Dense ∧ v.Dense))
  | set _ k =>
    have := k.decidableDense
    inferInstanceAs (Decidable (¬ k.ZeroWidth ∧ k.Dense))
  | framed s => s.decidableDense
  | choice _ alt =>
    have := fun i => (alt i).decidableDense
    inferInstanceAs (Decidable (∀ i, (alt i).Dense))
  | tree => .isTrue trivial

/-- How many elements of lists and sets and entries of maps a value contains, at all depths. -/
def elements : (s : Schema) → s.Val → Nat
  | scalar _, _ => 0
  | option s, v => match v with
    | none => 0
    | some x => s.elements x
  | boxed s, v => s.elements v
  | pair a b, v => a.elements v.1 + b.elements v.2
  | seq s, (vs : List s.Val) => (vs.map fun v => 1 + s.elements v).sum
  | map _ k v, (es : List (k.Val × v.Val)) =>
      (es.map fun e => 1 + (k.elements e.1 + v.elements e.2)).sum
  | set _ k, (ks : List k.Val) => (ks.map fun x => 1 + k.elements x).sum
  | framed s, v => s.elements v
  | choice _ alt, v => (alt v.1).elements v.2
  | tree, t => t.elements

section Sums

variable {α β γ : Type}

theorem sum_le_length_flatMap {R : α → β → Prop} {g : α → Nat} {f : β → List γ} {xs : List α}
    {ys : List β} (h : List.Forall₂ R xs ys) (hR : ∀ x y, R x y → g x ≤ (f y).length) :
    (xs.map g).sum ≤ (ys.flatMap f).length := by
  induction h with
  | nil => exact Nat.le_refl 0
  | cons hxy _ ih =>
    rw [List.map_cons, List.sum_cons, List.flatMap_cons, List.length_append]
    exact Nat.add_le_add (hR _ _ hxy) ih

theorem sum_le_of_subperm {xs ys : List α} (h : xs.Subperm ys) (g : α → Nat) :
    (xs.map g).sum ≤ (ys.map g).sum := by
  obtain ⟨zs, hperm, hsub⟩ := h
  rw [← (hperm.map g).sum_eq]
  exact (hsub.map g).sum_le_sum fun _ _ => Nat.zero_le _

end Sums

variable {n : FormatName} {s k t : Schema} {r : Nat} {it : Iteration} {bs : Bytes}

theorem elements_of_zeroWidth (h : s.ZeroWidth) (v : s.Val) : s.elements v = 0 := by
  induction s with
  | scalar s => rfl
  | boxed s ih => exact ih h v
  | pair a b iha ihb =>
    change a.elements v.1 + b.elements v.2 = 0
    rw [iha h.1, ihb h.2]
  | framed s ih => exact ih h v
  | _ => exact h.elim

/-- Where an element takes up bytes, they are more than the elements in it, and where it does not
there are none. -/
theorem elements_le {v : s.Val} (h : ¬ s.ZeroWidth → s.elements v < bs.length) :
    s.elements v ≤ bs.length := by
  by_cases hz : s.ZeroWidth
  · rw [elements_of_zeroWidth hz]
    exact Nat.zero_le _
  · exact Nat.le_of_lt (h hz)

/-- Of two parts one takes up bytes. -/
theorem elements_add_lt {x : k.Val} {y : t.Val} {cs ds : Bytes} (h : ¬ (k.ZeroWidth ∧ t.ZeroWidth))
    (hx : ¬ k.ZeroWidth → k.elements x < cs.length)
    (hy : ¬ t.ZeroWidth → t.elements y < ds.length) :
    k.elements x + t.elements y < (cs ++ ds).length := by
  have hxs := elements_le hx
  have hys := elements_le hy
  rw [List.length_append]
  rcases not_and_or.1 h with hk | ht
  · exact Nat.add_lt_add_of_lt_of_le (hx hk) hys
  · exact Nat.add_lt_add_of_le_of_lt hxs (hy ht)

theorem lt_length_counted {m k : Nat} {cs : Bytes} (h : m ≤ cs.length) :
    m < (n.lengthBytes k ++ cs).length := by
  have hpos := List.length_pos_of_ne_nil (n.lengthBytes_ne_nil k)
  rw [List.length_append]
  omega

theorem elements_seq_lt (ih : ∀ q x cs, s.Spells n q x cs → s.elements x < cs.length)
    {vs : List s.Val} (h : (seq s).Spells n r vs bs) : (seq s).elements vs < bs.length := by
  obtain ⟨-, _, ⟨q, rfl, css, hcss, rfl⟩, rfl⟩ := h
  have hsum := sum_le_length_flatMap (g := fun v => 1 + s.elements v) (f := id) hcss fun x cs hx => by
    have := ih q x cs hx
    rw [id]
    omega
  rw [List.flatMap_id] at hsum
  exact lt_length_counted hsum

/-- The entries that are left are some of those that were read. -/
theorem elements_map_lt (ih : ∀ q x y cs ds, k.Spells n q x cs → t.Spells n q y ds →
    k.elements x + t.elements y < (cs ++ ds).length) {es : List (k.Val × t.Val)}
    (h : (map it k t).Spells n r es bs) : (map it k t).elements es < bs.length := by
  obtain ⟨fs, rfl, -, _, ⟨q, rfl, cs, hcs, -, rfl⟩, rfl⟩ := h
  have hleft := sum_le_of_subperm (Entries.ofList_subperm (totalOrder_compare k) fs)
    fun e => 1 + (k.elements e.1 + t.elements e.2)
  have hread := sum_le_length_flatMap (g := fun e => 1 + (k.elements e.1 + t.elements e.2))
    (f := fun c => c.1 ++ c.2) hcs fun e c he => by
      have := ih q e.1 e.2 c.1 c.2 he.1 he.2
      omega
  exact lt_length_counted (hleft.trans hread)

theorem elements_set_lt (ih : ∀ q x cs, k.Spells n q x cs → k.elements x < cs.length)
    {xs : List k.Val} (h : (set it k).Spells n r xs bs) : (set it k).elements xs < bs.length := by
  obtain ⟨es, rfl, hes⟩ := spells_set.1 h
  have hmap := elements_map_lt (fun q x y cs ds hx hy => ?_) hes
  · have hfst : (set it k).elements (es.map Prod.fst) = (setEntries it k).elements es := by
      change ((es.map Prod.fst).map fun x => 1 + k.elements x).sum = _
      rw [List.map_map]
      rfl
    rwa [hfst]
  · exact Nat.lt_of_lt_of_le (ih q x cs hx) (by rw [List.length_append]; exact Nat.le_add_right ..)

theorem elements_tree_lt (n : FormatName) (t : Tree) : t.elements < (t.wire n).length := by
  induction t using Tree.induct with
  | h ts ih =>
    have hsum : (ts.map fun t => 1 + t.elements).sum ≤ (ts.flatMap (Tree.wire n)).length := by
      rw [List.length_flatMap]
      refine List.sum_le_sum fun t ht => ?_
      have := ih t ht
      omega
    rw [Tree.elements_node, Tree.wire_node]
    exact lt_length_counted hsum

/-- Every byte string of a value is longer than the value has elements. -/
theorem elements_lt_of_spells {v : s.Val} (hd : s.Dense) (hz : ¬ s.ZeroWidth)
    (h : s.Spells n r v bs) : s.elements v < bs.length := by
  induction s generalizing r bs with
  | scalar s =>
    obtain ⟨-, rfl⟩ := h
    exact List.length_pos_of_ne_nil (Scalar.wire_ne_nil n hz v)
  | option s ih =>
    cases v with
    | none =>
      obtain rfl : bs = [0] := h
      exact Nat.zero_lt_one
    | some x =>
      obtain ⟨cs, hx, rfl⟩ := h
      exact Nat.lt_succ_of_le (elements_le (s := s) fun hs => ih hd hs hx)
  | boxed s ih => exact ih (v := v) hd hz h
  | pair a b iha ihb =>
    obtain ⟨cs, ds, hx, hy, rfl⟩ := h
    exact elements_add_lt hz (fun ha => iha hd.1 ha hx) fun hb => ihb hd.2 hb hy
  | seq s ih => exact elements_seq_lt (fun q x cs => ih hd.2 hd.1) h
  | map it k t ihk iht =>
    refine elements_map_lt (fun q x y cs ds hx hy => ?_) h
    exact elements_add_lt hd.1 (fun hk => ihk hd.2.1 hk hx) fun ht => iht hd.2.2 ht hy
  | set it k ih => exact elements_set_lt (fun q x cs => ih hd.2 hd.1) h
  | framed s ih =>
    obtain ⟨q, rfl, hv⟩ := h
    exact ih hd hz hv
  | choice count alt ih =>
    obtain ⟨-, cs, hx, rfl⟩ := h
    have hle := elements_le fun hs => ih v.1 (hd v.1) hs hx
    have hpos := List.length_pos_of_ne_nil (n.variantBytes_ne_nil v.1)
    change (alt v.1).elements v.2 < _
    rw [List.length_append]
    omega
  | tree =>
    obtain ⟨-, -, rfl⟩ := h
    exact elements_tree_lt n v

/-- A value that was read contains fewer elements than bytes were consumed, at whatever depths and
whatever lengths were announced. A tree has no more nodes than it took bytes. -/
theorem elements_lt_consumed (n : FormatName) :
    (∀ s : Schema, ¬ s.ZeroWidth → s.Dense → ∀ (d d' : Decoder) (v : s.Val),
      s.decode n.format d = .ok v d' → s.elements v < d'.offset - d.offset) ∧
    ∀ (d d' : Decoder) (t : Tree), tree.decode n.format d = .ok t d' →
      t.nodes ≤ d'.offset - d.offset := by
  have hlt : ∀ s : Schema, ¬ s.ZeroWidth → s.Dense → ∀ (d d' : Decoder) (v : s.Val),
      s.decode n.format d = .ok v d' → s.elements v < d'.offset - d.offset := by
    intro s hz hd d d' v h
    obtain ⟨bs, u, -, hv, rfl⟩ := (reads_decode n s d v d').1 h
    change _ < d.offset + bs.length - d.offset
    rw [Nat.add_sub_cancel_left]
    exact elements_lt_of_spells hd hz hv
  refine ⟨hlt, fun d d' t h => ?_⟩
  rw [Tree.nodes_eq, Nat.add_comm]
  exact hlt tree id trivial d d' t h

/-- Of two entries with one key the first is lost. A tree of four nodes takes four bytes. -/
theorem elements_lt_consumed_lost :
    (¬ (map .unordered char (seq (option (scalar .unit)))).ZeroWidth ∧
      (map .unordered char (seq (option (scalar .unit)))).Dense ∧
      (map .unordered char (seq (option (scalar .unit)))).decode FormatName.fast.format
        ⟨⟨[9, 2, 0, 0, 0, 0, 0, 0, 0, 97, 1, 0, 0, 0, 0, 0, 0, 0, 1,
          97, 2, 0, 0, 0, 0, 0, 0, 0, 0, 1], 1⟩, .full 2⟩ = .ok [('a', [none, some ()])]
        ⟨⟨[9, 2, 0, 0, 0, 0, 0, 0, 0, 97, 1, 0, 0, 0, 0, 0, 0, 0, 1,
          97, 2, 0, 0, 0, 0, 0, 0, 0, 0, 1], 30⟩, .full 2⟩ ∧
      (map .unordered char (seq (option (scalar .unit)))).elements [('a', [none, some ()])] < 30 - 1) ∧
    tree.decode FormatName.canonical.format ⟨⟨[9, 2, 0, 1, 0, 9], 1⟩, .full 3⟩ =
        .ok (.node [.node [], .node [.node []]]) ⟨⟨[9, 2, 0, 1, 0, 9], 5⟩, .full 3⟩ ∧
      (Tree.node [.node [], .node [.node []]]).nodes ≤ 5 - 1 := by
  have hz : ¬ (map .unordered char (seq (option (scalar .unit)))).ZeroWidth := by decide
  have hd : (map .unordered char (seq (option (scalar .unit)))).Dense := by decide
  have hmap : (map .unordered char (seq (option (scalar .unit)))).decode FormatName.fast.format
      ⟨⟨[9, 2, 0, 0, 0, 0, 0, 0, 0, 97, 1, 0, 0, 0, 0, 0, 0, 0, 1,
        97, 2, 0, 0, 0, 0, 0, 0, 0, 0, 1], 1⟩, .full 2⟩ = .ok [('a', [none, some ()])]
      ⟨⟨[9, 2, 0, 0, 0, 0, 0, 0, 0, 97, 1, 0, 0, 0, 0, 0, 0, 0, 1,
        97, 2, 0, 0, 0, 0, 0, 0, 0, 0, 1], 30⟩, .full 2⟩ := by cbv
  have htree : tree.decode FormatName.canonical.format ⟨⟨[9, 2, 0, 1, 0, 9], 1⟩, .full 3⟩ =
      .ok (.node [.node [], .node [.node []]]) ⟨⟨[9, 2, 0, 1, 0, 9], 5⟩, .full 3⟩ := by cbv
  exact ⟨⟨hz, hd, hmap, (elements_lt_consumed .fast).1 _ hz hd _ _ _ hmap⟩,
    htree, (elements_lt_consumed .canonical).2 _ _ _ htree⟩

end Schema

end WireCodec
