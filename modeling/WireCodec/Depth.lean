import WireCodec.Error

/-!
# Container depth

A depth budget bounds how many containers are open at once. Opening one takes a
unit and fails when none is left; closing one gives it back, and a close without
an open never lifts the budget above its maximum, so no budget ever holds more.

Whatever owns a budget is a `HasDepth`. `container` runs an action inside one
container and closes it however the action ends.
-/
namespace WireCodec

structure DepthBudget where
  max : Nat
  remaining : Nat
  remaining_le : remaining ≤ max
  deriving DecidableEq, Repr

namespace DepthBudget

def full (max : Nat) : DepthBudget := ⟨max, max, Nat.le_refl max⟩

/-- How many containers are open. -/
def depth (b : DepthBudget) : Nat := b.max - b.remaining

/-- Takes a unit. -/
def enter (b : DepthBudget) : Except Error DepthBudget :=
  if b.remaining = 0 then .error (.depthExceeded b.max)
  else .ok ⟨b.max, b.remaining - 1, Nat.le_trans (Nat.sub_le ..) b.remaining_le⟩

/-- Gives a unit back, which is lost where none was taken. -/
def exit (b : DepthBudget) : DepthBudget :=
  if h : b.remaining < b.max then ⟨b.max, b.remaining + 1, h⟩ else b

def reset (b : DepthBudget) : DepthBudget := full b.max

@[simp] theorem depth_full (max : Nat) : (full max).depth = 0 := Nat.sub_self max
@[simp] theorem max_exit (b : DepthBudget) : b.exit.max = b.max := by
  simp only [exit]; split <;> rfl
@[simp] theorem max_reset (b : DepthBudget) : b.reset.max = b.max := rfl

theorem enter_zero {b : DepthBudget} (h : b.remaining = 0) :
    b.enter = .error (.depthExceeded b.max) := by simp [enter, h]

theorem enter_pos {b : DepthBudget} (h : b.remaining ≠ 0) :
    b.enter = .ok ⟨b.max, b.remaining - 1, Nat.le_trans (Nat.sub_le ..) b.remaining_le⟩ := by
  simp [enter, h]

/-- A unit taken and given back leaves the budget as it was. -/
theorem exit_of_enter {b c : DepthBudget} (h : b.enter = .ok c) : c.exit = b := by
  obtain ⟨max, remaining, hb⟩ := b
  simp only [enter] at h
  split at h
  · cases h
  · cases h
    simp only [exit]
    rw [dif_pos (by omega)]
    congr
    omega

end DepthBudget

/-- A state that owns a depth budget. -/
class HasDepth (σ : Type) where
  budget : σ → DepthBudget
  setBudget : σ → DepthBudget → σ

instance : HasDepth DepthBudget := ⟨id, fun _ b => b⟩

namespace HasDepth

variable {σ α : Type} [HasDepth σ]

/-- Takes a unit of the budget that the state owns. -/
def enter : EStateM Error σ Unit := fun s =>
  match (budget s).enter with
  | .ok b => .ok () (setBudget s b)
  | .error e => .error e s

def close (s : σ) : σ := setBudget s (budget s).exit

def exit : EStateM Error σ Unit := modify close

def reset : EStateM Error σ Unit := modify fun s => setBudget s (budget s).reset

/-- Runs `body` inside one container, which is closed whether or not `body` fails. -/
def container (body : EStateM Error σ α) : EStateM Error σ α := fun s =>
  match enter s with
  | .error e s => .error e s
  | .ok _ s =>
    match body s with
    | .ok a s => .ok a (close s)
    | .error e s => .error e (close s)

/-- With no unit left the body is not run and nothing changes. -/
theorem container_of_exhausted {s : σ} (h : (budget s).remaining = 0)
    (body : EStateM Error σ α) : container body s = .error (.depthExceeded (budget s).max) s := by
  simp only [container, enter, DepthBudget.enter_zero h]

theorem container_of_enter {s : σ} {b : DepthBudget} (h : (budget s).enter = .ok b)
    (body : EStateM Error σ α) :
    container body s =
      match body (setBudget s b) with
      | .ok a t => .ok a (close t)
      | .error e t => .error e (close t) := by
  simp only [container, enter, h]

end HasDepth

end WireCodec
