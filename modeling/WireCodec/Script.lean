import WireCodec.Depth

/-!
# Scripts

A script makes one call after the other on a state, whether or not the calls
before it failed, and reports what each came to and the state after it. Steps can
be put inside a container, which is closed when they are done, or run on a copy
of the state. Inside a container a script may also stop at the first step that
fails.
-/
namespace WireCodec

inductive Step (σ α : Type) where
  | call (m : EStateM Error σ α)
  | nested (stops : Bool) (body : List (Step σ α))
  | fork (body : List (Step σ α))

/-- What a step came to, and the state after it. -/
inductive Report (σ α : Type) where
  | done (answer : α) (after : σ)
  | group (inner : List (Report σ α)) (after : σ)
  | failed (error : Error) (after : σ)

namespace Report

variable {σ α : Type}

def after : Report σ α → σ
  | done _ s => s
  | group _ s => s
  | failed _ s => s

def isFailed : Report σ α → Bool
  | failed _ _ => true
  | _ => false

end Report

namespace Step

variable {σ α : Type} [HasDepth σ]

mutual

/-- Runs one step. A container that cannot be opened fails without running its body, and one that
can is closed whatever happens in it. A fork leaves no trace on the state. -/
def run : Step σ α → σ → Report σ α
  | call m, s =>
    match m s with
    | .ok a s => .done a s
    | .error e s => .failed e s
  | nested stops body, s =>
    match HasDepth.enter s with
    | .error e s => .failed e s
    | .ok _ s =>
      let (inner, s) := runAll stops body s
      .group inner (HasDepth.close s)
  | fork body, s => .group (runAll false body s).1 s

/-- The reports of the steps that were run, and the state after the last of them. -/
def runAll (stops : Bool) : List (Step σ α) → σ → List (Report σ α) × σ
  | [], s => ([], s)
  | step :: steps, s =>
    let r := run step s
    if stops && r.isFailed then ([r], r.after)
    else
      let (rs, s) := runAll stops steps r.after
      (r :: rs, s)

end

end Step

end WireCodec
