import WireCodec.Proofs.Runs

/-!
# Runs under different budgets

Two states of a codec at one place differ in their depth budget. A run that starts at a place
settles if there is a threshold: with less depth it fails for want of it, and with as much or
more it ends in one way, which is the same for all budgets. Sequences settle, with the greater of
two thresholds, and so do containers, with one more than their bodies.
-/
namespace WireCodec

open HasDepth (budget setBudget)

/-- The states a run may start from where it stands at some place: they differ in their budget
and in what the run has no part in. -/
structure Frame (ι P σ : Type) [HasDepth σ] where
  state : ι → P → DepthBudget → σ
  /-- How a run may fail other than for want of depth. -/
  final : Error → Prop
  budget_state : ∀ i p b, budget (state i p b) = b
  setBudget_state : ∀ i p b q, setBudget (state i p b) q = state i p q

namespace Frame

variable {ι P σ α β : Type} [HasDepth σ] (F : Frame ι P σ)

/-- With less depth than `need`, `m` runs out of it. -/
def Lacks (m : EStateM Error σ α) (p : P) (need : Nat) : Prop :=
  ∀ b : DepthBudget, b.remaining < need →
    ∃ q, ∀ i, m (F.state i p b) = .error (.depthExceeded b.max) (F.state i q b)

/-- Where `m` does not run out of depth, it ends in one way. -/
inductive Settles (m : EStateM Error σ α) (p : P) : Prop
  | ok (need : Nat) (a : α) (q : P) (hl : F.Lacks m p need)
      (h : ∀ i b, need ≤ b.remaining → m (F.state i p b) = .ok a (F.state i q b))
  | error (need : Nat) (x : Error) (q : P) (hl : F.Lacks m p need) (hx : F.final x)
      (h : ∀ i b, need ≤ b.remaining → m (F.state i p b) = .error x (F.state i q b))

variable {F} {m : EStateM Error σ α} {f : α → EStateM Error σ β} {p : P} {need : Nat}

theorem Settles.congr {m' : EStateM Error σ α} (h : F.Settles m p)
    (hm : ∀ i b, m' (F.state i p b) = m (F.state i p b)) : F.Settles m' p := by
  cases h with
  | ok need a q hl h =>
    refine .ok need a q (fun b hb => ?_) fun i b hb => (hm i b).trans (h i b hb)
    obtain ⟨q', hq'⟩ := hl b hb
    exact ⟨q', fun i => (hm i b).trans (hq' i)⟩
  | error need x q hl hx h =>
    refine .error need x q (fun b hb => ?_) hx fun i b hb => (hm i b).trans (h i b hb)
    obtain ⟨q', hq'⟩ := hl b hb
    exact ⟨q', fun i => (hm i b).trans (hq' i)⟩

theorem lacks_zero (m : EStateM Error σ α) (p : P) : F.Lacks m p 0 :=
  fun _ hb => absurd hb (Nat.not_lt_zero _)

theorem Settles.pure (a : α) (p : P) : F.Settles (pure a) p :=
  .ok 0 a p (lacks_zero _ p) fun _ _ _ => rfl

theorem Settles.throw {x : Error} (hx : F.final x) (p : P) :
    F.Settles (throw x : EStateM Error σ α) p := .error 0 x p (lacks_zero _ p) hx fun _ _ _ => rfl

theorem Lacks.bind (h : F.Lacks m p need) : F.Lacks (m >>= f) p need := by
  intro b hb
  obtain ⟨q, hq⟩ := h b hb
  exact ⟨q, fun i => bind_of_error (hq i)⟩

/-- Of two steps the second one has to settle only where the first one leads. -/
theorem Settles.bind (h : F.Settles m p)
    (hf : ∀ a q, (∀ i, ∃ b, m (F.state i p b) = .ok a (F.state i q b)) → F.Settles (f a) q) :
    F.Settles (m >>= f) p := by
  cases h with
  | error need x q hl hx h => exact .error need x q hl.bind hx fun i b hb => bind_of_error (h i b hb)
  | ok need a q hl h =>
    have hlack : ∀ need', F.Lacks (f a) q need' → F.Lacks (m >>= f) p (max need need') := by
      intro need' hl' b hb
      -- a budget that gets through the first step is too small for the second
      rcases Nat.lt_or_ge b.remaining need with hn | hn
      · exact hl.bind b hn
      · obtain ⟨q', hq'⟩ := hl' b (by omega)
        exact ⟨q', fun i => (bind_of_ok (h i b hn)).trans (hq' i)⟩
    have hrun : ∀ need' i (b : DepthBudget), max need need' ≤ b.remaining →
        need' ≤ b.remaining ∧ (m >>= f) (F.state i p b) = f a (F.state i q b) :=
      fun need' i b hb => ⟨Nat.le_trans (Nat.le_max_right ..) hb,
        bind_of_ok (h i b (Nat.le_trans (Nat.le_max_left ..) hb))⟩
    cases hf a q fun i => ⟨.full need, h i _ (Nat.le_refl need)⟩ with
    | ok need' a' q' hl' h' =>
      exact .ok _ a' q' (hlack _ hl') fun i b hb =>
        (hrun _ i b hb).2.trans (h' i b (hrun _ i b hb).1)
    | error need' x q' hl' hx h' =>
      exact .error _ x q' (hlack _ hl') hx fun i b hb =>
        (hrun _ i b hb).2.trans (h' i b (hrun _ i b hb).1)

theorem Settles.map (h : F.Settles m p) (g : α → β) : F.Settles (do return g (← m)) p :=
  h.bind fun a q _ => .pure (g a) q

/-- A run that succeeds somewhere succeeds from its threshold on. -/
theorem Settles.of_ok (h : F.Settles m p) {i : ι} {b : DepthBudget} {a : α} {s : σ}
    (hok : m (F.state i p b) = .ok a s) :
    ∃ need q, F.Lacks m p need ∧ need ≤ b.remaining ∧ F.state i q b = s ∧
      ∀ j c, need ≤ c.remaining → m (F.state j p c) = .ok a (F.state j q c) := by
  have henough : ∀ need, F.Lacks m p need → need ≤ b.remaining := by
    intro need hl
    by_contra hn
    obtain ⟨q, hq⟩ := hl b (Nat.lt_of_not_le hn)
    rw [hq i] at hok
    cases hok
  cases h with
  | ok need a' q hl h =>
    rw [h i b (henough need hl)] at hok
    cases hok
    exact ⟨need, q, hl, henough need hl, rfl, h⟩
  | error need x q hl hx h =>
    rw [h i b (henough need hl)] at hok
    cases hok

/-- A run fails in one of the ways it may, or for want of depth. -/
theorem Settles.of_error (h : F.Settles m p) {i : ι} {b : DepthBudget} {x : Error} {s : σ}
    (herr : m (F.state i p b) = .error x s) : F.final x ∨ x = .depthExceeded b.max := by
  have hshort : ∀ need, F.Lacks m p need → b.remaining < need → x = .depthExceeded b.max := by
    intro need hl hb
    obtain ⟨q, hq⟩ := hl b hb
    rw [hq i] at herr
    cases herr
    rfl
  cases h with
  | ok need a q hl h =>
    refine .inr (hshort need hl (Nat.lt_of_not_le fun hn => ?_))
    rw [h i b hn] at herr
    cases herr
  | error need y q hl hy h =>
    by_cases hn : need ≤ b.remaining
    · rw [h i b hn] at herr
      cases herr
      exact .inl hy
    · exact .inr (hshort need hl (Nat.lt_of_not_le hn))

section Container

variable {i : ι} {b c : DepthBudget} {q : P}

theorem enter_state (h : b.enter = .ok c) (m : EStateM Error σ α) :
    (budget (F.state i p b)).enter = .ok c ∧ m (setBudget (F.state i p b) c) = m (F.state i p c) := by
  rw [F.budget_state, F.setBudget_state]
  exact ⟨h, rfl⟩

theorem close_state (h : b.enter = .ok c) : HasDepth.close (F.state i q c) = F.state i q b := by
  rw [HasDepth.close, F.budget_state, F.setBudget_state, DepthBudget.exit_of_enter h]

theorem container_of_exhausted (h : b.remaining = 0) (i : ι) (m : EStateM Error σ α) :
    HasDepth.container m (F.state i p b) = .error (.depthExceeded b.max) (F.state i p b) := by
  have hexh := HasDepth.container_of_exhausted (s := F.state i p b)
    (by rw [F.budget_state]; exact h) m
  rw [F.budget_state] at hexh
  exact hexh

theorem container_of_ok {a : α} (hb : b.enter = .ok c)
    (h : m (F.state i p c) = .ok a (F.state i q c)) :
    HasDepth.container m (F.state i p b) = .ok a (F.state i q b) := by
  obtain ⟨henter, hbody⟩ := enter_state (F := F) (i := i) (p := p) hb m
  rw [HasDepth.container_of_enter henter, hbody, h, ← close_state hb]

theorem container_of_error {x : Error} (hb : b.enter = .ok c)
    (h : m (F.state i p c) = .error x (F.state i q c)) :
    HasDepth.container m (F.state i p b) = .error x (F.state i q b) := by
  obtain ⟨henter, hbody⟩ := enter_state (F := F) (i := i) (p := p) hb m
  rw [HasDepth.container_of_enter henter, hbody, h, ← close_state hb]

end Container

/-- A container takes one unit more than its body. -/
theorem Settles.container (h : F.Settles m p) : F.Settles (HasDepth.container m) p := by
  have hlack : ∀ need, F.Lacks m p need → F.Lacks (HasDepth.container m) p (need + 1) := by
    intro need hl b hb
    by_cases hr : b.remaining = 0
    · exact ⟨p, fun i => container_of_exhausted hr i m⟩
    · obtain ⟨q, hq⟩ := hl ⟨b.max, b.remaining - 1, _⟩ (by simp only; omega)
      exact ⟨q, fun i => container_of_error (DepthBudget.enter_pos hr) (hq i)⟩
  have henter : ∀ need (b : DepthBudget), need + 1 ≤ b.remaining →
      ∃ c, b.enter = .ok c ∧ need ≤ c.remaining := by
    intro need b hb
    exact ⟨_, DepthBudget.enter_pos (by omega), by simp only; omega⟩
  cases h with
  | ok need a q hl h =>
    refine .ok (need + 1) a q (hlack need hl) fun i b hb => ?_
    obtain ⟨c, hc, hle⟩ := henter need b hb
    exact container_of_ok hc (h i c hle)
  | error need x q hl hx h =>
    refine .error (need + 1) x q (hlack need hl) hx fun i b hb => ?_
    obtain ⟨c, hc, hle⟩ := henter need b hb
    exact container_of_error hc (h i c hle)

end Frame

end WireCodec
