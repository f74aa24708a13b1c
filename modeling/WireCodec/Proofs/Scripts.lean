import WireCodec.Proofs.Runs
import WireCodec.Script

/-!
# The states a script passes

A script goes on after a failed call, and the calls inside a container are calls of its own. What
every call does to the state, and opening and closing a container with it, therefore holds between
any two states that a script passes, the one it starts from among them.
-/
namespace WireCodec

open HasDepth (close)

namespace Report

variable {σ α : Type}

theorem induct {P : Report σ α → Prop} (done : ∀ a s, P (.done a s))
    (group : ∀ inner s, (∀ r ∈ inner, P r) → P (.group inner s))
    (failed : ∀ x s, P (.failed x s)) : ∀ r, P r :=
  @Report.rec σ α P (fun rs => ∀ r ∈ rs, P r) done group failed (by simp) (by simp_all)

mutual

/-- The states the calls of a report left off in, one after the other. -/
def passed : Report σ α → List σ
  | done _ s => [s]
  | group inner s => passedAll inner ++ [s]
  | failed _ s => [s]

def passedAll : List (Report σ α) → List σ
  | [] => []
  | r :: rs => passed r ++ passedAll rs

end

@[simp] theorem passedAll_nil : passedAll ([] : List (Report σ α)) = [] := rfl
@[simp] theorem passedAll_cons (r : Report σ α) (rs : List (Report σ α)) :
    passedAll (r :: rs) = r.passed ++ passedAll rs := rfl

end Report

namespace Step

variable {σ α : Type}

/-- What passes from the body of a container, and from what is run on a copy, to the whole step
holds of every step. -/
theorem induct {P : Step σ α → Prop} (call : ∀ m, P (.call m))
    (nested : ∀ stops body, (∀ step ∈ body, P step) → P (.nested stops body))
    (fork : ∀ body, (∀ step ∈ body, P step) → P (.fork body)) : ∀ step, P step :=
  @Step.rec σ α P (fun body => ∀ step ∈ body, P step) call nested fork (by simp) (by simp_all)

mutual

/-- All calls of a step, also those inside containers, are of one kind, and none is made on a
copy of the state. -/
def Calls (P : EStateM Error σ α → Prop) : Step σ α → Prop
  | call m => P m
  | nested _ body => CallsAll P body
  | fork _ => False

def CallsAll (P : EStateM Error σ α → Prop) : List (Step σ α) → Prop
  | [] => True
  | step :: steps => Calls P step ∧ CallsAll P steps

end

theorem callsAll_iff {P : EStateM Error σ α → Prop} {steps : List (Step σ α)} :
    CallsAll P steps ↔ ∀ step ∈ steps, Calls P step := by
  induction steps with
  | nil => simp [CallsAll]
  | cons step steps ih => rw [CallsAll, ih, List.forall_mem_cons]

/-- The states of a script: the one it starts from and all that its calls leave off in. -/
def states [HasDepth σ] (stops : Bool) (steps : List (Step σ α)) (s : σ) : List σ :=
  s :: Report.passedAll (runAll stops steps s).1

end Step

/-- However `m` ends, it leaves off in a state that `R` allows. -/
def Keeps {σ α : Type} (R : σ → σ → Prop) (m : EStateM Error σ α) : Prop :=
  ∀ s r t, m s = ended r t → R s t

/-- From `s` through `xs` to `t`, all of them related to those that come later. -/
structure Path {σ : Type} (R : σ → σ → Prop) (s : σ) (xs : List σ) (t : σ) : Prop where
  pairwise : (s :: xs).Pairwise R
  last : ∀ x ∈ s :: xs, R x t

section Keeping

variable {σ α : Type} {R : σ → σ → Prop} {s t : σ} {m : EStateM Error σ α}

theorem Keeps.of_ok (h : Keeps R m) {a : α} (hm : m s = .ok a t) : R s t := h s (.ok a) t hm

theorem Keeps.of_error (h : Keeps R m) {x : Error} (hm : m s = .error x t) : R s t :=
  h s (.error x) t hm

end Keeping

section Paths

variable {σ : Type} {R : σ → σ → Prop} [IsPreorder σ R] {s t u : σ} {xs ys : List σ}

theorem Path.nil (s : σ) : Path R s [] s :=
  ⟨List.pairwise_singleton R s, List.forall_mem_singleton.2 (refl_of R s)⟩

theorem Path.step (h : R s t) : Path R s [t] t :=
  ⟨List.pairwise_pair.2 h, List.forall_mem_cons.2 ⟨h, List.forall_mem_singleton.2 (refl_of R t)⟩⟩

theorem Path.trans (h : Path R s xs t) (h' : Path R t ys u) : Path R s (xs ++ ys) u := by
  have hnext : ∀ y ∈ ys, R t y := fun y hy => List.rel_of_pairwise_cons h'.pairwise hy
  have hend : R t u := h'.last t List.mem_cons_self
  refine ⟨?_, fun x hx => ?_⟩
  · rw [← List.cons_append, List.pairwise_append]
    exact ⟨h.pairwise, h'.pairwise.of_cons,
      fun x hx y hy => trans_of R (h.last x hx) (hnext y hy)⟩
  · rw [← List.cons_append, List.mem_append] at hx
    obtain hx | hx := hx
    · exact trans_of R (h.last x hx) hend
    · exact h'.last x (List.mem_cons_of_mem t hx)

/-- A path may start earlier. -/
theorem Path.of_rel (h : R s t) (h' : Path R t xs u) : Path R s xs u := by
  have hnext : ∀ x ∈ xs, R s x :=
    fun x hx => trans_of R h (List.rel_of_pairwise_cons h'.pairwise hx)
  refine ⟨List.pairwise_cons.2 ⟨hnext, h'.pairwise.of_cons⟩, List.forall_mem_cons.2 ⟨?_, ?_⟩⟩
  · exact trans_of R h (h'.last t List.mem_cons_self)
  · exact fun x hx => h'.last x (List.mem_cons_of_mem t hx)

end Paths

namespace Step

variable {σ α : Type} [HasDepth σ] {R : σ → σ → Prop} [IsPreorder σ R]
  {P : EStateM Error σ α → Prop}

/-- Without stopping, the next step starts where the one before it left off. -/
theorem runAll_cons (step : Step σ α) (steps : List (Step σ α)) (s : σ) :
    runAll false (step :: steps) s =
      (run step s :: (runAll false steps (run step s).after).1,
        (runAll false steps (run step s).after).2) := by
  rw [runAll]
  rfl

theorem path_call {m : EStateM Error σ α} (h : Keeps R m) (s : σ) :
    Path R s (run (.call m) s).passed (run (.call m) s).after := by
  rw [run]
  cases hm : m s with
  | ok a t => exact Path.step (h.of_ok hm)
  | error x t => exact Path.step (h.of_error hm)

theorem path_runAll_of (stops : Bool) {steps : List (Step σ α)}
    (h : ∀ step ∈ steps, ∀ s, Path R s (run step s).passed (run step s).after) (s : σ) :
    Path R s (Report.passedAll (runAll stops steps s).1) (runAll stops steps s).2 := by
  induction steps generalizing s with
  | nil => exact Path.nil s
  | cons step steps ih =>
    rw [List.forall_mem_cons] at h
    have hstep := h.1 s
    rw [runAll]
    dsimp only
    split
    · rw [Report.passedAll_cons, Report.passedAll_nil, List.append_nil]
      exact hstep
    · exact hstep.trans (ih h.2 (run step s).after)

theorem path_run (hcall : ∀ m, P m → Keeps R m) (henter : Keeps R (HasDepth.enter (σ := σ)))
    (hclose : ∀ s : σ, R s (close s)) {step : Step σ α} (h : Calls P step) (s : σ) :
    Path R s (run step s).passed (run step s).after := by
  induction step using Step.induct generalizing s with
  | call m => exact path_call (hcall m h) s
  | nested stops body ih =>
    have hbody : ∀ step ∈ body, ∀ s, Path R s (run step s).passed (run step s).after :=
      fun step hstep => ih step hstep (callsAll_iff.1 h step hstep)
    rw [run]
    cases hs : HasDepth.enter s with
    | error x t => exact Path.step (henter.of_error hs)
    | ok u t =>
      have hinner := path_runAll_of stops hbody t
      exact (Path.of_rel (henter.of_ok hs) hinner).trans (Path.step (hclose _))
  | fork body ih => exact h.elim

/-- What holds from before to after of every call, and of a container's opening and closing, holds
from each state that a script passes to each later one. -/
theorem path_runAll (hcall : ∀ m, P m → Keeps R m) (henter : Keeps R (HasDepth.enter (σ := σ)))
    (hclose : ∀ s : σ, R s (close s)) {steps : List (Step σ α)} (h : CallsAll P steps)
    (stops : Bool) (s : σ) :
    Path R s (Report.passedAll (runAll stops steps s).1) (runAll stops steps s).2 :=
  path_runAll_of stops (fun _ hstep => path_run hcall henter hclose (callsAll_iff.1 h _ hstep)) s

end Step

end WireCodec
