import WireCodec.Encoder
import WireCodec.Schema.Basic

/-!
# Encoding values

`Schema.encode` writes a value through an encoder. A list is its length followed
by its elements inside one container. The entries of a map are written in the
order in which they are visited and then sorted where they stand.
-/
namespace WireCodec

open HasDepth (container)

namespace Encoder

variable {α : Type}

def each (f : α → Encoding Unit) : List α → Encoding Unit
  | [] => pure ()
  | a :: as => do
    f a
    each f as

/-- Like `each`, and says where each element starts. -/
def eachAt (f : α → Encoding Unit) : List α → Encoding (List Nat)
  | [] => pure []
  | a :: as => do
    let start := (← get).offset
    f a
    return start :: (← eachAt f as)

variable (F : Format)

/-- A count and, inside one container, the elements one after the other. -/
def list (f : α → Encoding Unit) (as : List α) : Encoding Unit := do
  write F .length as.length
  container (each f as)

/-- A count and, inside one container, the entries, sorted once all of them are written. -/
def entries (f : α → Encoding Unit) (es : List α) : Encoding Unit := do
  write F .length es.length
  container do sortEntries F (← eachAt f es)

mutual

def tree : Tree → Encoding Unit
  | .node ts => do
    write F .length ts.length
    container (forest ts)

def forest : List Tree → Encoding Unit
  | [] => pure ()
  | t :: ts => do
    tree t
    forest ts

end

theorem forest_eq_each (ts : List Tree) : forest F ts = each (tree F) ts := by
  induction ts with
  | nil => rfl
  | cons t ts ih => simp only [forest, each, ih]

/-- A tree is written as the list of its children. -/
theorem tree_node (ts : List Tree) : tree F (.node ts) = list F (tree F) ts := by
  rw [tree, forest_eq_each, list]

end Encoder

/-- Writes a value, part by part in the order of its schema. -/
def Schema.encode (F : Format) : (s : Schema) → s.Val → Encoding Unit
  | scalar s, v => Encoder.write F (.scalar s) v
  | option s, v =>
    match v with
    | none => Encoder.write F .presence false
    | some v => do
      Encoder.write F .presence true
      s.encode F v
  | boxed s, v => s.encode F v
  | pair a b, v => do
    a.encode F v.1
    b.encode F v.2
  | seq s, vs => Encoder.list F (s.encode F) vs
  | map _ k v, es =>
    Encoder.entries F (fun e => do
      k.encode F e.1
      v.encode F e.2) es
  | set _ k, ks => Encoder.entries F (k.encode F) ks
  | framed s, v => container (s.encode F v)
  | choice _ alt, v => do
    Encoder.write F .variantIndex (.ofNat v.1)
    (alt v.1).encode F v.2
  | tree, t => Encoder.tree F t

end WireCodec
