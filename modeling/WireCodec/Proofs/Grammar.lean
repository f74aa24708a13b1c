import WireCodec.Proofs.Layout
import WireCodec.Proofs.Order

/-!
# The grammar of a format

`Schema.Spells` says which byte strings stand for a value. It knows no cursor and
no order of steps: a byte string is cut into the parts of the value, and a map may
be spelled by any entries that come to it, as long as each key may follow the key
before it. What a format leaves open, several byte strings for one value, is open
in the grammar too.
-/
namespace WireCodec

/-- Which byte strings stand for which values where so many containers may be open at once. -/
abbrev Grammar (α : Type) := Nat → α → Bytes → Prop

namespace Grammar

variable {α β : Type}

/-- One container around what `P` spells. -/
def inside (P : Grammar α) : Grammar α := fun r a bs => ∃ q, r = q + 1 ∧ P q a bs

/-- One element after the other. -/
def all (P : Grammar α) : Grammar (List α) := fun r as bs =>
  ∃ cs, List.Forall₂ (P r) as cs ∧ bs = cs.flatten

def empty : Grammar Unit := fun _ _ bs => bs = []

/-- Keys that a format accepts one behind the other. -/
def KeyOrder (n : FormatName) (ks : List Bytes) : Prop :=
  ks.IsChain fun a b => n.format.checkKeyOrder a b = .ok ()

/-- One entry after the other, in an order of keys that the format accepts. -/
def entries (n : FormatName) (K : Grammar α) (V : Grammar β) : Grammar (List (α × β)) :=
  fun r es bs => ∃ cs : List (Bytes × Bytes),
    List.Forall₂ (fun e c => K r e.1 c.1 ∧ V r e.2 c.2) es cs ∧ KeyOrder n (cs.map Prod.fst) ∧
      bs = cs.flatMap fun c => c.1 ++ c.2

/-- The elements behind their count, in a container of their own. -/
def counted (n : FormatName) (P : Grammar (List α)) : Grammar (List α) := fun r as bs =>
  as.length ≤ n.format.maxLength ∧ ∃ cs, inside P r as cs ∧ bs = n.lengthBytes as.length ++ cs

end Grammar

open Grammar in
/-- The byte strings of a value. -/
def Schema.Spells (n : FormatName) : (s : Schema) → Grammar s.Val
  | scalar s, _, v, bs => s.Short n.format.maxLength v ∧ bs = s.wire n v
  | option s, r, v, bs => match v with
    | none => bs = [0]
    | some x => ∃ cs, s.Spells n r x cs ∧ bs = 1 :: cs
  | boxed s, r, v, bs => s.Spells n r v bs
  | pair a b, r, v, bs => ∃ cs ds, a.Spells n r v.1 cs ∧ b.Spells n r v.2 ds ∧ bs = cs ++ ds
  | seq s, r, vs, bs => counted n (all (s.Spells n)) r vs bs
  | map _ k v, r, es, bs => ∃ fs, es = Entries.ofList k.compare fs ∧
      counted n (entries n (k.Spells n) (v.Spells n)) r fs bs
  | set _ k, r, ks, bs => ∃ fs : List (k.Val × Unit),
      ks = Entries.keysOfList k.compare (fs.map (·.1)) ∧
        counted n (entries n (k.Spells n) empty) r fs bs
  | framed s, r, v, bs => inside (s.Spells n) r v bs
  | choice _ alt, r, v, bs => v.1.val < 2 ^ 32 ∧
      ∃ cs, (alt v.1).Spells n r v.2 cs ∧ bs = n.variantBytes v.1 ++ cs
  | tree, r, t, bs => t.Short n.format.maxLength ∧ t.depth ≤ r ∧ bs = t.wire n

namespace Schema

/-- Sets are treated like maps to the unit. -/
abbrev setEntries (it : Iteration) (k : Schema) : Schema := map it k (scalar .unit)

section Sets

variable {n : FormatName} {it : Iteration} {k : Schema} {r m : Nat}

theorem spells_unit (n : FormatName) : (scalar .unit).Spells n = Grammar.empty := by
  funext r v bs
  exact propext (and_iff_right trivial)

theorem spells_set {xs : List k.Val} {bs : Bytes} : (set it k).Spells n r xs bs ↔
    ∃ es : List (k.Val × Unit), xs = es.map Prod.fst ∧ (setEntries it k).Spells n r es bs := by
  have hu := spells_unit n
  constructor
  · intro hrun
    obtain ⟨fs, rfl, h⟩ := hrun
    refine ⟨_, Entries.keysOfList_map_fst k.compare fs, fs, rfl, ?_⟩
    rwa [hu]
  · intro hspec
    obtain ⟨_, rfl, fs, rfl, h⟩ := hspec
    rw [hu] at h
    exact ⟨fs, (Entries.keysOfList_map_fst k.compare fs).symm, h⟩

variable (es : List (k.Val × Unit))

theorem valid_set : (set it k).Valid (es.map Prod.fst) ↔ (setEntries it k).Valid es := by
  refine and_congr Iff.rfl (List.forall_mem_map.trans (forall₂_congr fun e _ => ?_))
  exact (and_iff_left trivial).symm

theorem short_set : (set it k).Short m (es.map Prod.fst) ↔ (setEntries it k).Short m es := by
  refine and_congr ?_ (List.forall_mem_map.trans (forall₂_congr fun e _ => ?_))
  · exact iff_of_eq (congrArg (· ≤ m) (List.length_map _))
  · exact (and_iff_left trivial).symm

theorem depth_set : (set it k).depth (es.map Prod.fst) = (setEntries it k).depth es := by
  have h : (es.map Prod.fst).map k.depth = es.map fun e => max (k.depth e.1) 0 := by
    simp only [List.map_map, Nat.max_zero]
    rfl
  exact congrArg (1 + deepest ·) h

theorem wire_set : (set it k).wire n (es.map Prod.fst) = (setEntries it k).wire n es := by
  have h : (es.map Prod.fst).map (k.wire n) = es.map fun e => k.wire n e.1 ++ [] := by
    simp only [List.map_map, List.append_nil]
    rfl
  change n.lengthBytes (es.map Prod.fst).length ++ (n.arrange ((es.map Prod.fst).map _)).flatten = _
  rw [h, List.length_map]
  rfl

end Sets

end Schema

end WireCodec
