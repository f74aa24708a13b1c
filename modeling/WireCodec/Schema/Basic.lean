import WireCodec.Scalar

/-!
# Schemas

A schema says what kind of value is on the wire, and `Val` is the type of those
values. Tuples are nested pairs. A map is the list of its entries and a set the
list of its elements, in the order in which they are visited: ascending, or no
particular one. `framed` puts one container around a value and `choice` is a
tagged union; a record is a framed tuple and an enumeration a framed choice.
-/
namespace WireCodec

/-- A tree carries nothing but its shape. -/
inductive Tree where
  | node (children : List Tree)
  deriving Repr

inductive Iteration where
  | ascending
  | unordered
  deriving DecidableEq, Repr

inductive Schema where
  | scalar (s : Scalar)
  | option (s : Schema)
  | boxed (s : Schema)
  | pair (a b : Schema)
  | seq (s : Schema)
  | map (it : Iteration) (k v : Schema)
  | set (it : Iteration) (k : Schema)
  | framed (s : Schema)
  | choice (count : Nat) (alt : Fin count → Schema)
  | tree

namespace Schema

def Val : Schema → Type
  | scalar s => s.Val
  | option s => Option s.Val
  | boxed s => s.Val
  | pair a b => a.Val × b.Val
  | seq s => List s.Val
  | map _ k v => List (k.Val × v.Val)
  | set _ k => List k.Val
  | framed s => s.Val
  | choice count alt => (i : Fin count) × (alt i).Val
  | tree => Tree

def triple (a b c : Schema) : Schema := pair a (pair b c)

end Schema

end WireCodec
