import Mathlib
import WireCodec.Depth

/-!
# Successful runs

What a run of a composed action says about its parts: a sequence succeeds where
both halves do, with or without a state, a container where a unit of depth is left
and its body succeeds with one unit less.
-/
namespace WireCodec

variable {σ α β : Type}

/-- A run that has ended with an answer or a failure, and where it left off. -/
def ended : Except Error α → σ → EStateM.Result Error σ α
  | .ok a, s => .ok a s
  | .error x, s => .error x s

theorem ended_inj {r r' : Except Error α} {s s' : σ} (h : ended r s = ended r' s') :
    r = r' ∧ s = s' := by
  cases r <;> cases r' <;> cases h <;> exact ⟨rfl, rfl⟩

/-- Every run has ended, in one of the two ways. -/
theorem exists_ended (m : EStateM Error σ α) (s : σ) : ∃ r t, m s = ended r t := by
  cases h : m s with
  | ok a t => exact ⟨.ok a, t, rfl⟩
  | error x t => exact ⟨.error x, t, rfl⟩

/-- A sequence succeeds where its first half does, and the second one from where the first left off. -/
theorem bind_eq_ok {m : EStateM Error σ α} {f : α → EStateM Error σ β} {s u : σ} {b : β} :
    (m >>= f) s = .ok b u ↔ ∃ a t, m s = .ok a t ∧ f a t = .ok b u := by
  change EStateM.bind m f s = .ok b u ↔ _
  cases h : m s with
  | ok a t =>
    simp only [EStateM.bind, h]
    constructor
    · intro hf
      exact ⟨a, t, rfl, hf⟩
    · intro hspec
      obtain ⟨_, _, ⟨⟩, hf⟩ := hspec
      exact hf
  | error e t =>
    simp only [EStateM.bind, h]
    constructor
    · intro hf
      cases hf
    · intro hspec
      obtain ⟨_, _, ⟨⟩, _⟩ := hspec

theorem bind_of_ok {m : EStateM Error σ α} {f : α → EStateM Error σ β} {s t : σ} {a : α}
    (h : m s = .ok a t) : (m >>= f) s = f a t := by
  change EStateM.bind m f s = _
  simp only [EStateM.bind, h]

theorem bind_of_error {m : EStateM Error σ α} {f : α → EStateM Error σ β} {s t : σ} {x : Error}
    (h : m s = .error x t) : (m >>= f) s = .error x t := by
  change EStateM.bind m f s = _
  simp only [EStateM.bind, h]

/-- Two sequences run alike if their first halves do and, from where these left off, the second ones. -/
theorem bind_congr_run {m m' : EStateM Error σ α} {f f' : α → EStateM Error σ β} {s : σ}
    (h : m s = m' s) (hf : ∀ a t, m s = .ok a t → f a t = f' a t) :
    (m >>= f) s = (m' >>= f') s := by
  cases hr : m s with
  | ok a t => rw [bind_of_ok hr, bind_of_ok (h ▸ hr), hf a t hr]
  | error x t => rw [bind_of_error hr, bind_of_error (h ▸ hr)]

theorem get_bind_run (f : σ → EStateM Error σ α) (s : σ) : (do f (← get)) s = f s s := rfl

theorem pure_eq_ok {a b : α} {s t : σ} :
    (pure a : EStateM Error σ α) s = .ok b t ↔ a = b ∧ s = t := by
  change EStateM.Result.ok a s = .ok b t ↔ _
  rw [EStateM.Result.ok.injEq]

/-- Only the answer is mapped: where a run ends is left alone. -/
theorem map_eq_ok {m : EStateM Error σ α} {f : α → β} {s t : σ} {b : β} :
    (do return f (← m)) s = .ok b t ↔ ∃ a, m s = .ok a t ∧ f a = b := by
  simp only [bind_eq_ok, pure_eq_ok]
  constructor
  · intro hrun
    obtain ⟨a, _, ha, rfl, rfl⟩ := hrun
    exact ⟨a, ha, rfl⟩
  · intro hspec
    obtain ⟨a, ha, rfl⟩ := hspec
    exact ⟨a, t, ha, rfl, rfl⟩

theorem exists_map_eq_ok {m : EStateM Error σ α} {f : α → β} {s t : σ} :
    (∃ b, (do return f (← m)) s = .ok b t) ↔ ∃ a, m s = .ok a t := by
  simp only [map_eq_ok]
  constructor
  · intro hrun
    obtain ⟨_, a, ha, -⟩ := hrun
    exact ⟨a, ha⟩
  · intro hspec
    obtain ⟨a, ha⟩ := hspec
    exact ⟨_, a, ha, rfl⟩

theorem map_eq_error {m : EStateM Error σ α} {f : α → β} {s t : σ} {x : Error} :
    (do return f (← m)) s = .error x t ↔ m s = .error x t := by
  cases h : m s with
  | ok a e =>
    rw [bind_of_ok h]
    exact iff_of_false (fun h => by cases h) (fun h => by cases h)
  | error y e => rw [bind_of_error h, EStateM.Result.error.injEq, EStateM.Result.error.injEq]

theorem get_eq_ok {s t u : σ} : (get : EStateM Error σ σ) s = .ok t u ↔ s = t ∧ s = u := by
  change EStateM.Result.ok s s = .ok t u ↔ _
  rw [EStateM.Result.ok.injEq]

theorem throw_ne_ok {e : Error} {a : α} {s t : σ} :
    (throw e : EStateM Error σ α) s ≠ .ok a t := nofun

/-- Without a state, a sequence succeeds where both halves do. -/
theorem except_bind_eq_ok {x : Except Error α} {f : α → Except Error β} {b : β} :
    (x >>= f) = .ok b ↔ ∃ a, x = .ok a ∧ f a = .ok b := by
  cases x with
  | ok a =>
    constructor
    · intro hf
      exact ⟨a, rfl, hf⟩
    · intro hspec
      obtain ⟨_, ⟨⟩, hf⟩ := hspec
      exact hf
  | error e =>
    constructor
    · intro hf
      cases hf
    · intro hspec
      obtain ⟨_, ⟨⟩, _⟩ := hspec

namespace DepthBudget

theorem ext {b c : DepthBudget} (hm : b.max = c.max) (hr : b.remaining = c.remaining) : b = c := by
  cases b; cases c; cases hm; cases hr; rfl

/-- What entering leaves: one unit less of the same maximum, which takes that there was one. -/
theorem enter_eq_ok {b c : DepthBudget} :
    b.enter = .ok c ↔ b.max = c.max ∧ b.remaining = c.remaining + 1 := by
  constructor
  · intro h
    have hc := exit_of_enter h
    have hr : b.remaining ≠ 0 := fun h₀ => by rw [enter_zero h₀] at h; cases h
    rw [enter_pos hr] at h
    cases h
    exact ⟨rfl, by simp only; omega⟩
  · intro hspec
    obtain ⟨hm, hr⟩ := hspec
    rw [enter_pos (by omega)]
    exact congrArg _ (ext hm (by simp only; omega))

end DepthBudget

open HasDepth in
/-- A container succeeds where there is a unit of depth for it and its body succeeds with the rest.
The unit is given back at the end. -/
theorem container_eq_ok [HasDepth σ] {body : EStateM Error σ α} {s t : σ} {a : α} :
    container body s = .ok a t ↔
      ∃ b u, (budget s).enter = .ok b ∧ body (setBudget s b) = .ok a u ∧ t = close u := by
  constructor
  · intro h
    cases hb : (budget s).enter with
    | error e => simp [container, enter, hb] at h
    | ok b =>
      rw [container_of_enter hb] at h
      cases hu : body (setBudget s b) with
      | error e u => rw [hu] at h; cases h
      | ok a' u => rw [hu] at h; cases h; exact ⟨b, u, rfl, hu, rfl⟩
  · intro hspec
    obtain ⟨b, u, hb, hu, rfl⟩ := hspec
    rw [container_of_enter hb, hu]

end WireCodec
