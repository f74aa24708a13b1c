import WireCodec.Decoder
import WireCodec.Schema.Entries
import WireCodec.Schema.Order

/-!
# Decoding values

`Schema.decode` reads a value the way it is written. Every key of a map is held
against the key before it as soon as it is read, and the entries are then
collected by key, so a value that comes out lists its entries in ascending order.
-/
namespace WireCodec

open HasDepth (container)

namespace Decoder

variable {α β : Type}

def each (f : Decoding α) : Nat → Decoding (List α)
  | 0 => pure []
  | n + 1 => do
    let a ← f
    return a :: (← each f n)

variable (F : Format)

def list (f : Decoding α) : Decoding (List α) := do
  let n ← read F .length
  container (each f n)

/-- Holds the key read from `start` up to `stop` against the key before it, if there is one. -/
def checkAfter (before : Option (Nat × Nat)) (start stop : Nat) : Decoding Unit :=
  match before with
  | none => pure ()
  | some (a, b) => checkKeys F a b start stop

/-- Reads `n` more entries, the last key so far being `before`. -/
def eachEntry (key : Decoding α) (value : Decoding β) (before : Option (Nat × Nat)) :
    Nat → Decoding (List (α × β))
  | 0 => pure []
  | n + 1 => do
    let start := (← get).offset
    let k ← key
    let stop := (← get).offset
    checkAfter F before start stop
    let v ← value
    return (k, v) :: (← eachEntry key value (some (start, stop)) n)

/-- The entries of a map as they stand on the wire. -/
def entries (key : Decoding α) (value : Decoding β) : Decoding (List (α × β)) := do
  let n ← read F .length
  container (eachEntry F key value none n)

/-- Trees of fewer than `n` levels. -/
def treeBelow : Nat → Decoding Tree
  | 0 => fun d => .error (.depthExceeded d.depth.max) d
  | n + 1 => return .node (← list F (treeBelow n))

/-- Each level of a tree opens a container, so no tree that fits the budget is cut off. -/
def tree : Decoding Tree := fun d => treeBelow F (d.depth.remaining + 1) d

end Decoder

def Schema.decode (F : Format) : (s : Schema) → Decoding s.Val
  | scalar s => Decoder.read F (.scalar s)
  | option s => do
    let present : Bool ← Decoder.read F .presence
    if present then return some (← s.decode F) else return none
  | boxed s => s.decode F
  | pair a b => do
    let x ← a.decode F
    let y ← b.decode F
    return (x, y)
  | seq s => Decoder.list F (s.decode F)
  | map _ k v => return Entries.ofList k.compare (← Decoder.entries F (k.decode F) (v.decode F))
  | set _ k => do
    let es ← Decoder.entries F (k.decode F) (pure ())
    return Entries.keysOfList k.compare (es.map (·.1))
  | framed s => container (s.decode F)
  | choice count alt => do
    let i ← Decoder.readVariant F count
    let v ← (alt i).decode F
    return ⟨i, v⟩
  | tree => Decoder.tree F

end WireCodec
