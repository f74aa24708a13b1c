/-!
# Entries by key

The entries of a map in ascending order of their keys, one per key. Inserting
under a key that is there already replaces its value.
-/
namespace WireCodec.Entries

variable {α β : Type}

def insert (cmp : α → α → Ordering) (k : α) (v : β) : List (α × β) → List (α × β)
  | [] => [(k, v)]
  | e :: es =>
    match cmp k e.1 with
    | .lt => (k, v) :: e :: es
    | .eq => (e.1, v) :: es
    | .gt => e :: insert cmp k v es

/-- Inserts the given entries one after the other, so that of several entries under one key
the last decides the value. -/
def ofList (cmp : α → α → Ordering) (es : List (α × β)) : List (α × β) :=
  es.foldl (fun m e => insert cmp e.1 e.2 m) []

/-- The given keys in ascending order, each once. -/
def keysOfList (cmp : α → α → Ordering) (ks : List α) : List α :=
  (ofList cmp (ks.map (·, ()))).map (·.1)

@[simp] theorem ofList_nil (cmp : α → α → Ordering) : ofList cmp ([] : List (α × β)) = [] := rfl

end WireCodec.Entries
