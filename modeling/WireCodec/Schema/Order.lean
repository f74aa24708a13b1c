import WireCodec.Schema.Basic

/-!
# The order of values

Every kind of value is ordered: scalars as they compare, an absent option first,
pairs by their first component and then by their second, lists element by element
with a shorter one before its extensions.
-/
namespace WireCodec

mutual

def Tree.compare : Tree → Tree → Ordering
  | .node as, .node bs => compareForest as bs

/-- Tree by tree, and a forest before its extensions. -/
def compareForest : List Tree → List Tree → Ordering
  | [], [] => .eq
  | [], _ :: _ => .lt
  | _ :: _, [] => .gt
  | a :: as, b :: bs => (a.compare b).then (compareForest as bs)

end

namespace Schema

def compareOption {α : Type} (cmp : α → α → Ordering) : Option α → Option α → Ordering
  | none, none => .eq
  | none, some _ => .lt
  | some _, none => .gt
  | some a, some b => cmp a b

def comparePair {α β : Type} (cmp₁ : α → α → Ordering) (cmp₂ : β → β → Ordering) (x y : α × β) :
    Ordering :=
  (cmp₁ x.1 y.1).then (cmp₂ x.2 y.2)

/-- Collections compare as the lists of what is in them, alternatives by their number before their
content. -/
def compare : (s : Schema) → s.Val → s.Val → Ordering
  | scalar s => s.compare
  | option s => compareOption s.compare
  | boxed s => s.compare
  | pair a b => comparePair a.compare b.compare
  | seq s => List.compareLex s.compare
  | map _ k v => List.compareLex (comparePair k.compare v.compare)
  | set _ k => List.compareLex k.compare
  | framed s => s.compare
  | choice _ alt => fun x y =>
    if h : x.1 = y.1 then (alt y.1).compare (h ▸ x.2) y.2 else Ord.compare x.1 y.1
  | tree => Tree.compare

end Schema

end WireCodec
