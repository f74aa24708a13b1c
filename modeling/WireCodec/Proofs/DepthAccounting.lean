import WireCodec.Proofs.Runs
import WireCodec.Proofs.Scripts

/-!
# Counting what is open

A script over a budget of its own takes units and gives them back, and puts steps inside guards,
each of which takes one unit and gives it back at the end of its body. A unit that is given back to
a full budget is lost. As long as no more units are given back by hand than were taken by hand,
none is, and the depth is the number of guards that are open and of units that are out.
-/
namespace WireCodec

open Step (run runAll Calls CallsAll callsAll_iff)

/-- What can be done to a budget by hand. -/
inductive DepthCall where
  | enter
  | exit
  | reset
  deriving DecidableEq, Repr

namespace DepthCall

def call : DepthCall → EStateM Error DepthBudget Unit
  | enter => HasDepth.enter
  | exit => HasDepth.exit
  | reset => HasDepth.reset

/-- Makes the call and tells which one was made. -/
def act (c : DepthCall) : EStateM Error DepthBudget DepthCall := do
  c.call
  return c

variable {b c : DepthBudget}

theorem enter_of_ok (h : b.enter = .ok c) :
    (HasDepth.enter : EStateM Error DepthBudget Unit) b = .ok () c := by
  have hb : (HasDepth.budget b).enter = .ok c := h
  have hrun : HasDepth.enter b = .ok () (HasDepth.setBudget b c) := by
    simp only [HasDepth.enter, hb]
  exact hrun

theorem enter_of_exhausted (h : b.remaining = 0) :
    (HasDepth.enter : EStateM Error DepthBudget Unit) b = .error (.depthExceeded b.max) b := by
  have hb : (HasDepth.budget b).enter = .error (.depthExceeded b.max) := DepthBudget.enter_zero h
  simp only [HasDepth.enter, hb]

theorem act_enter (h : b.enter = .ok c) : enter.act b = .ok enter c := bind_of_ok (enter_of_ok h)

theorem act_enter_of_exhausted (h : b.remaining = 0) :
    enter.act b = .error (.depthExceeded b.max) b := bind_of_error (enter_of_exhausted h)

/-- A unit is refused only if none is left, and then nothing changes. -/
theorem act_enter_eq_error {x : Error} : enter.act b = .error x c ↔
    b.remaining = 0 ∧ x = .depthExceeded b.max ∧ c = b := by
  by_cases hb : b.remaining = 0
  · rw [act_enter_of_exhausted hb, EStateM.Result.error.injEq, eq_comm (b := x), eq_comm (b := c)]
    exact (and_iff_right hb).symm
  · rw [act_enter (DepthBudget.enter_pos hb)]
    exact iff_of_false (fun h => by cases h) fun h => hb h.1

end DepthCall

inductive DepthEvent where
  | did (c : DepthCall)
  | opened
  | closed
  | refused
  deriving DecidableEq, Repr

open DepthCall (enter exit reset)
open DepthEvent (did opened closed refused)

/-- What happened, one after the other, and the budget after it. -/
abbrev DepthLog := List (DepthEvent × DepthBudget)

namespace DepthLog

def after : DepthBudget → DepthLog → DepthBudget
  | b, [] => b
  | _, (_, c) :: xs => after c xs

@[simp] theorem after_nil (b : DepthBudget) : after b [] = b := rfl
@[simp] theorem after_cons (b c : DepthBudget) (e : DepthEvent) (xs : DepthLog) :
    after b ((e, c) :: xs) = after c xs := rfl

theorem after_append (b : DepthBudget) (xs ys : DepthLog) :
    after b (xs ++ ys) = after (after b xs) ys := by
  induction xs generalizing b with
  | nil => rfl
  | cons p xs ih => exact ih p.2

def times (e : DepthEvent) (xs : DepthLog) : Nat := (xs.map Prod.fst).count e

@[simp] theorem times_nil (e : DepthEvent) : times e [] = 0 := rfl
@[simp] theorem times_cons (e e' : DepthEvent) (c : DepthBudget) (xs : DepthLog) :
    times e ((e', c) :: xs) = times e xs + if e' = e then 1 else 0 := by
  simp [times, List.count_cons]
@[simp] theorem times_append (e : DepthEvent) (xs ys : DepthLog) :
    times e (xs ++ ys) = times e xs + times e ys := by
  simp [times]

/-- Holds of what is logged up to any point. -/
def Throughout (P : DepthLog → Prop) (log : DepthLog) : Prop := ∀ xs, xs <+: log → P xs

instance (P : DepthLog → Prop) [DecidablePred P] (log : DepthLog) : Decidable (Throughout P log) :=
  decidable_of_iff (∀ xs ∈ log.inits, P xs) (forall_congr' fun xs => by rw [List.mem_inits])

section Throughout

variable {P Q : DepthLog → Prop} {xs ys : DepthLog}

theorem Throughout.self (h : Throughout P xs) : P xs := h xs List.prefix_rfl

theorem Throughout.imp (h : Throughout P xs) (hPQ : ∀ ys, P ys → Q ys) : Throughout Q xs :=
  fun ys hys => hPQ ys (h ys hys)

theorem Throughout.front (h : Throughout P xs) (hys : ys <+: xs) : Throughout P ys :=
  fun zs hzs => h zs (hzs.trans hys)

theorem Throughout.take (h : Throughout P (xs ++ ys)) : Throughout P xs :=
  h.front (List.prefix_append xs ys)

theorem throughout_nil : Throughout P [] ↔ P [] :=
  ⟨fun h => h.self, fun h xs hxs => by rwa [List.prefix_nil.1 hxs]⟩

theorem throughout_append :
    Throughout P (xs ++ ys) ↔ Throughout P xs ∧ Throughout (fun zs => P (xs ++ zs)) ys := by
  constructor
  · intro h
    exact ⟨h.take, fun zs hzs => h _ ((List.prefix_append_right_inj xs).2 hzs)⟩
  · intro hspec zs hzs
    obtain ⟨hxs, hys⟩ := hspec
    -- a front of both ends within the first or reaches into the second
    obtain hle | ⟨ws, rfl⟩ := List.prefix_or_prefix_of_prefix hzs (List.prefix_append xs ys)
    · exact hxs zs hle
    · exact hys ws ((List.prefix_append_right_inj xs).1 hzs)

theorem throughout_cons {p : DepthEvent × DepthBudget} :
    Throughout P (p :: xs) ↔ P [] ∧ Throughout (fun zs => P (p :: zs)) xs := by
  constructor
  · intro h
    exact ⟨h [] List.nil_prefix, fun zs hzs => h _ ((List.prefix_cons_inj p).2 hzs)⟩
  · intro hspec zs hzs
    obtain rfl | ⟨ws, rfl, hws⟩ := List.prefix_cons_iff.1 hzs
    · exact hspec.1
    · exact hspec.2 ws hws

theorem throughout_concat {p : DepthEvent × DepthBudget} :
    Throughout P (xs ++ [p]) ↔ Throughout P xs ∧ P (xs ++ [p]) := by
  rw [throughout_append, throughout_cons, throughout_nil, List.append_nil]
  exact and_congr_right fun h => and_iff_right h.self

end Throughout

/-- All but `k` of the `e` are made up for by an `e'`. -/
def Backed (e e' : DepthEvent) (k : Nat) (xs : DepthLog) : Prop := times e xs ≤ times e' xs + k

instance (e e' : DepthEvent) (k : Nat) : DecidablePred (Backed e e' k) := fun xs =>
  inferInstanceAs (Decidable (times e xs ≤ times e' xs + k))

/-- No more units are given back by hand than were taken by hand. -/
abbrev Paid : DepthLog → Prop := Backed (did exit) (did enter) 0

/-- No more guards are closed than were opened. -/
abbrev Bracketed : DepthLog → Prop := Backed closed opened 0

/-- How many guards are open. -/
def guardsOpen (xs : DepthLog) : Nat := times opened xs - times closed xs

/-- How many units were taken by hand and are still to be given back. -/
def unitsOut (xs : DepthLog) : Nat := times (did enter) xs - times (did exit) xs

section Backed

variable {e e' : DepthEvent} {k : Nat} {xs ys : DepthLog}

theorem Backed.mono {k' : Nat} (h : Backed e e' k xs) (hk : k ≤ k') : Backed e e' k' xs :=
  Nat.le_trans h (Nat.add_le_add_left hk _)

/-- What comes later has to make up for what is still missing. -/
theorem throughout_backed_append : Throughout (Backed e e' k) (xs ++ ys) ↔
    Throughout (Backed e e' k) xs ∧
      Throughout (Backed e e' (k + times e' xs - times e xs)) ys := by
  rw [throughout_append]
  refine and_congr_right fun hxs => ?_
  have hend : times e xs ≤ times e' xs + k := hxs.self
  refine forall₂_congr fun zs _ => ?_
  simp only [Backed, times_append]
  omega

theorem throughout_backed_single {p : DepthEvent × DepthBudget} :
    Throughout (Backed e e' k) [p] ↔ Backed e e' k [p] := by
  rw [throughout_cons, throughout_nil]
  exact and_iff_right (Nat.zero_le _)

theorem throughout_backed_cons {p : DepthEvent × DepthBudget} :
    Throughout (Backed e e' k) (p :: xs) ↔ Backed e e' k [p] ∧
      Throughout (Backed e e' (k + times e' [p] - times e [p])) xs := by
  rw [← List.singleton_append, throughout_backed_append, throughout_backed_single]

end Backed

end DepthLog

open DepthLog

namespace DepthBudget

variable {b c : DepthBudget}

theorem depth_add_remaining (b : DepthBudget) : b.depth + b.remaining = b.max :=
  Nat.sub_add_cancel b.remaining_le

theorem depth_of_enter (h : b.enter = .ok c) : c.depth = b.depth + 1 := by
  obtain ⟨hm, hr⟩ := enter_eq_ok.1 h
  have hb := b.depth_add_remaining
  have hc := c.depth_add_remaining
  omega

theorem depth_exit (h : 0 < b.depth) : b.exit.depth + 1 = b.depth := by
  have hlt : b.remaining < b.max := Nat.lt_of_sub_pos h
  rw [exit, dif_pos hlt]
  simp only [depth] at h ⊢
  omega

/-- The budget that a guard's body starts with. -/
def inside (b : DepthBudget) : DepthBudget :=
  match b.enter with
  | .ok c => c
  | .error _ => b

theorem inside_of_enter (h : b.enter = .ok c) : b.inside = c := by rw [inside, h]

end DepthBudget

/-- What a log may say next. -/
inductive DepthEvent.Moves (P : DepthCall → Prop) : DepthEvent → DepthBudget → DepthBudget → Prop
  | enter {b c : DepthBudget} (hP : P enter) (h : b.enter = .ok c) : Moves P (did enter) b c
  | exit (b : DepthBudget) (hP : P exit) : Moves P (did exit) b b.exit
  | reset (b : DepthBudget) (hP : P reset) : Moves P (did reset) b b.reset
  | opened {b c : DepthBudget} (h : b.enter = .ok c) : Moves P opened b c
  | closed (b : DepthBudget) : Moves P closed b b.exit
  | refused {b : DepthBudget} (h : b.remaining = 0) : Moves P refused b b

namespace DepthLog

variable {P : DepthCall → Prop} {b : DepthBudget} {xs ys : DepthLog}

/-- Each entry of a log follows from where the one before it left off. -/
def Leads (P : DepthCall → Prop) : DepthBudget → DepthLog → Prop
  | _, [] => True
  | b, (e, c) :: xs => e.Moves P b c ∧ Leads P c xs

theorem leads_append : Leads P b (xs ++ ys) ↔ Leads P b xs ∧ Leads P (after b xs) ys := by
  induction xs generalizing b with
  | nil => exact ⟨fun h => ⟨trivial, h⟩, And.right⟩
  | cons p xs ih => exact (and_congr_right fun _ => ih).trans and_assoc.symm

theorem Leads.front (h : Leads P b xs) (hys : ys <+: xs) : Leads P b ys := by
  obtain ⟨zs, rfl⟩ := hys
  exact (leads_append.1 h).1

theorem max_after (h : Leads P b xs) : (after b xs).max = b.max := by
  induction xs generalizing b with
  | nil => rfl
  | cons p xs ih =>
    obtain ⟨e, c⟩ := p
    obtain ⟨hmove, hrest⟩ := h
    rw [after_cons, ih hrest]
    cases hmove with
    | enter _ h => exact (DepthBudget.enter_eq_ok.1 h).1.symm
    | exit _ _ => exact b.max_exit
    | reset _ _ => exact b.max_reset
    | opened h => exact (DepthBudget.enter_eq_ok.1 h).1.symm
    | closed _ => exact b.max_exit
    | refused _ => rfl

/-- One entry, where there is something to give back if it gives back. -/
theorem depth_of_moves {e : DepthEvent} {c : DepthBudget} (h : e.Moves (· ≠ reset) b c)
    (hb : e = closed ∨ e = did exit → 0 < b.depth) :
    c.depth + times closed [(e, c)] + times (did exit) [(e, c)] =
      b.depth + times opened [(e, c)] + times (did enter) [(e, c)] := by
  cases h with
  | enter _ h => exact DepthBudget.depth_of_enter h
  | exit _ _ => exact DepthBudget.depth_exit (hb (.inr rfl))
  | reset _ hreset => exact absurd rfl hreset
  | opened h => exact DepthBudget.depth_of_enter h
  | closed _ => exact DepthBudget.depth_exit (hb (.inl rfl))
  | refused _ => rfl

/-- While something is out wherever a unit is given back, no unit is lost. -/
theorem depth_after (h : Leads (· ≠ reset) b xs) (hpaid : Throughout Paid xs)
    (hbr : Throughout Bracketed xs) :
    (after b xs).depth + times closed xs + times (did exit) xs =
      b.depth + times opened xs + times (did enter) xs := by
  induction xs using List.reverseRecOn with
  | nil => rfl
  | append_singleton xs p ih =>
    obtain ⟨e, c⟩ := p
    obtain ⟨hxs, hmove, -⟩ := leads_append.1 h
    have hsum := ih hxs hpaid.take hbr.take
    have hle : times (did exit) xs ≤ times (did enter) xs := hpaid.take.self
    have hle' : times closed xs ≤ times opened xs := hbr.take.self
    have hlast : times (did exit) (xs ++ [(e, c)]) ≤ times (did enter) (xs ++ [(e, c)]) :=
      hpaid.self
    have hlast' : times closed (xs ++ [(e, c)]) ≤ times opened (xs ++ [(e, c)]) := hbr.self
    simp only [times_append] at hlast hlast' ⊢
    rw [after_append, after_cons, after_nil]
    -- what the last entry gives back was out before it, so the depth was not zero
    have hone := depth_of_moves hmove fun he => by
      obtain rfl | rfl := he
      · have hc : times closed [(closed, c)] = 1 := rfl
        have ho : times opened [(closed, c)] = 0 := rfl
        omega
      · have hc : times (did exit) [(did exit, c)] = 1 := rfl
        have ho : times (did enter) [(did exit, c)] = 0 := rfl
        omega
    omega

end DepthLog

namespace Report

mutual

/-- What a step that was run with the budget `b` did, in the order in which it did it. -/
def log (b : DepthBudget) : Report DepthBudget DepthCall → DepthLog
  | done c t => [(did c, t)]
  | group inner t => (opened, b.inside) :: (logAll b.inside inner ++ [(closed, t)])
  | failed _ t => [(refused, t)]

def logAll (b : DepthBudget) : List (Report DepthBudget DepthCall) → DepthLog
  | [] => []
  | r :: rs => log b r ++ logAll r.after rs

end

/-- A guard that was opened: the budget before it, what its body did, and the budget after it. -/
structure Guard where
  before : DepthBudget
  body : List (Report DepthBudget DepthCall)
  after : DepthBudget

/-- What was done inside the guard, and inside the guards in its body as well. -/
def Guard.log (g : Guard) : DepthLog := logAll g.before.inside g.body

mutual

def guards (b : DepthBudget) : Report DepthBudget DepthCall → List Guard
  | done _ _ => []
  | group inner t => ⟨b, inner, t⟩ :: guardsAll b.inside inner
  | failed _ _ => []

def guardsAll (b : DepthBudget) : List (Report DepthBudget DepthCall) → List Guard
  | [] => []
  | r :: rs => guards b r ++ guardsAll r.after rs

end

variable {b : DepthBudget} {r : Report DepthBudget DepthCall}
  {rs : List (Report DepthBudget DepthCall)}

theorem after_log (b : DepthBudget) (r : Report DepthBudget DepthCall) :
    DepthLog.after b (r.log b) = r.after := by
  cases r with
  | done c t => rfl
  | group inner t =>
    rw [log, after_cons, after_append]
    rfl
  | failed x t => rfl

theorem bracketed_logAll_of (h : ∀ r ∈ rs, ∀ b, Throughout Bracketed (r.log b) ∧
    times closed (r.log b) = times opened (r.log b)) (b : DepthBudget) :
    Throughout Bracketed (logAll b rs) ∧
      times closed (logAll b rs) = times opened (logAll b rs) := by
  induction rs generalizing b with
  | nil => exact ⟨throughout_nil.2 (Nat.le_refl 0), rfl⟩
  | cons r rs ih =>
    rw [List.forall_mem_cons] at h
    obtain ⟨hr, heq⟩ := h.1 b
    obtain ⟨hrs, heqs⟩ := ih h.2 r.after
    rw [logAll, times_append, times_append, heq, heqs]
    refine ⟨throughout_backed_append.2 ⟨hr, ?_⟩, rfl⟩
    rw [heq, Nat.add_sub_cancel]
    exact hrs

theorem bracketed_log (r : Report DepthBudget DepthCall) : ∀ b, Throughout Bracketed (r.log b) ∧
    times closed (r.log b) = times opened (r.log b) := by
  induction r using Report.induct with
  | done c t => exact fun b => ⟨throughout_backed_single.2 (Nat.zero_le _), rfl⟩
  | failed x t => exact fun b => ⟨throughout_backed_single.2 (Nat.zero_le _), rfl⟩
  | group inner t ih =>
    intro b
    obtain ⟨hbody, heq⟩ := bracketed_logAll_of ih b.inside
    -- inside, the bracket of the guard itself is open as well
    rw [log, throughout_backed_cons, throughout_concat]
    refine ⟨⟨Nat.zero_le _, hbody.imp fun _ h => h.mono (Nat.zero_le 1), ?_⟩, ?_⟩
    · rw [Backed, times_append, times_append, heq]
      rfl
    · simp [heq]

/-- Every guard that was opened is closed, and none is closed before it was opened. -/
theorem bracketed_logAll (b : DepthBudget) (rs : List (Report DepthBudget DepthCall)) :
    Throughout Bracketed (logAll b rs) ∧
      times closed (logAll b rs) = times opened (logAll b rs) :=
  bracketed_logAll_of (fun r _ => bracketed_log r) b

/-- What a step did on its own, outside of all guards in it. -/
def own : Report DepthBudget DepthCall → DepthLog
  | done c t => [(did c, t)]
  | group _ _ => []
  | failed _ _ => []

theorem own_cases (b : DepthBudget) (r : Report DepthBudget DepthCall) :
    r.own = [] ∨ r.own = r.log b := by
  cases r with
  | done c t => exact .inr rfl
  | group inner t => exact .inl rfl
  | failed x t => exact .inl rfl

/-- What the guard's body did itself. -/
def Guard.own (g : Guard) : DepthLog := g.body.flatMap Report.own

/-- In a body itself, no more units are given back than were taken. -/
def PaysOwn (rs : List (Report DepthBudget DepthCall)) : Prop := Throughout Paid (rs.flatMap own)

instance : DecidablePred PaysOwn := fun rs =>
  inferInstanceAs (Decidable (Throughout Paid (rs.flatMap own)))

/-- What a guard does as a whole pays for itself, so it makes no difference to the body it is in. -/
theorem paid_logAll_of
    (h : ∀ r ∈ rs, ∀ b, (∀ g ∈ r.guards b, PaysOwn g.body) → r.own = [] → Throughout Paid (r.log b))
    {k : Nat} (hown : Throughout (Backed (did exit) (did enter) k) (rs.flatMap own))
    (hin : ∀ g ∈ guardsAll b rs, PaysOwn g.body) :
    Throughout (Backed (did exit) (did enter) k) (logAll b rs) := by
  induction rs generalizing b k with
  | nil => exact hown
  | cons r rs ih =>
    rw [List.forall_mem_cons] at h
    rw [guardsAll, List.forall_mem_append] at hin
    rw [List.flatMap_cons] at hown
    rw [logAll, throughout_backed_append]
    obtain hnil | hlog := own_cases b r
    · have hpaid := h.1 b hin.1 hnil
      rw [hnil, List.nil_append] at hown
      refine ⟨hpaid.imp fun _ h => h.mono (Nat.zero_le k),
        ih h.2 (hown.imp fun _ h => h.mono ?_) hin.2⟩
      exact Nat.le_sub_of_add_le (Nat.add_le_add_left hpaid.self k)
    · rw [hlog, throughout_backed_append] at hown
      exact ⟨hown.1, ih h.2 hown.2 hin.2⟩

theorem paid_log (r : Report DepthBudget DepthCall) :
    ∀ b, (∀ g ∈ r.guards b, PaysOwn g.body) → r.own = [] → Throughout Paid (r.log b) := by
  induction r using Report.induct with
  | done c t => exact fun b _ hnil => by cases hnil
  | failed x t => exact fun b _ _ => throughout_backed_single.2 (Nat.zero_le _)
  | group inner t ih =>
    intro b hin _
    rw [guards, List.forall_mem_cons] at hin
    have hbody := paid_logAll_of ih hin.1 hin.2
    rw [log, throughout_backed_cons, throughout_concat]
    refine ⟨Nat.zero_le _, hbody, ?_⟩
    rw [Backed, times_append, times_append]
    exact hbody.self

/-- Where each body pays for itself, the script as a whole does. -/
theorem paid_logAll (hown : PaysOwn rs) (hin : ∀ g ∈ guardsAll b rs, PaysOwn g.body) :
    Throughout Paid (logAll b rs) :=
  paid_logAll_of (fun r _ => paid_log r) hown hin

/-- The log has the guard in it, where the budget is what it was before the guard. -/
def Guard.StandsIn (g : Guard) (b : DepthBudget) (log : DepthLog) : Prop := ∃ xs zs,
  log = xs ++ (Report.log g.before (group g.body g.after) ++ zs) ∧ DepthLog.after b xs = g.before

theorem standsIn_logAll_of (h : ∀ r ∈ rs, ∀ b, ∀ g ∈ r.guards b, g.StandsIn b (r.log b)) {g : Guard}
    (hg : g ∈ guardsAll b rs) : g.StandsIn b (logAll b rs) := by
  induction rs generalizing b with
  | nil => cases hg
  | cons r rs ih =>
    rw [List.forall_mem_cons] at h
    rw [guardsAll, List.mem_append] at hg
    rw [logAll]
    obtain hg | hg := hg
    · obtain ⟨xs, zs, hlog, hafter⟩ := h.1 b g hg
      refine ⟨xs, zs ++ logAll r.after rs, ?_, hafter⟩
      rw [hlog, List.append_assoc, List.append_assoc]
    · obtain ⟨xs, zs, hlog, hafter⟩ := ih h.2 hg
      refine ⟨r.log b ++ xs, zs, ?_, ?_⟩
      · rw [hlog, List.append_assoc]
      · rw [after_append, after_log, hafter]

theorem standsIn_log (r : Report DepthBudget DepthCall) :
    ∀ b, ∀ g ∈ r.guards b, g.StandsIn b (r.log b) := by
  induction r using Report.induct with
  | done c t => exact fun b g hg => by cases hg
  | failed x t => exact fun b g hg => by cases hg
  | group inner t ih =>
    intro b g hg
    rw [guards, List.mem_cons] at hg
    obtain rfl | hg := hg
    · exact ⟨[], [], (List.append_nil _).symm, rfl⟩
    · obtain ⟨xs, zs, hlog, hafter⟩ := standsIn_logAll_of ih hg
      refine ⟨(opened, b.inside) :: xs, zs ++ [(closed, t)], ?_, hafter⟩
      rw [log, hlog, List.append_assoc, List.append_assoc, List.cons_append]

/-- Every guard of a script stands in its log. -/
theorem standsIn_logAll {g : Guard} (hg : g ∈ guardsAll b rs) : g.StandsIn b (logAll b rs) :=
  standsIn_logAll_of (fun r _ => standsIn_log r) hg

end Report

namespace Step

variable {P : DepthCall → Prop}

/-- The log of a run, and where it leads, if the steps of it are as they should be. -/
theorem leads_runAll_of (stops : Bool) {steps : List (Step DepthBudget DepthCall)}
    (h : ∀ step ∈ steps, ∀ b, Leads P b ((run step b).log b)) (b : DepthBudget) :
    Leads P b (Report.logAll b (runAll stops steps b).1) ∧
      after b (Report.logAll b (runAll stops steps b).1) = (runAll stops steps b).2 := by
  induction steps generalizing b with
  | nil => exact ⟨trivial, rfl⟩
  | cons step steps ih =>
    rw [List.forall_mem_cons] at h
    have hstep := h.1 b
    rw [runAll]
    dsimp only
    split
    · rw [Report.logAll, Report.logAll, List.append_nil, Report.after_log]
      exact ⟨hstep, rfl⟩
    · obtain ⟨hrest, hafter⟩ := ih h.2 (run step b).after
      rw [Report.logAll, leads_append, after_append, Report.after_log]
      exact ⟨⟨hstep, hrest⟩, hafter⟩

/-- A guard is refused where a unit is, whatever is inside it. -/
theorem run_nested_eq_failed {stops : Bool} {body : List (Step DepthBudget DepthCall)}
    {b c : DepthBudget} {x : Error} : run (.nested stops body) b = .failed x c ↔
      b.remaining = 0 ∧ x = .depthExceeded b.max ∧ c = b := by
  rw [run]
  by_cases hb : b.remaining = 0
  · rw [DepthCall.enter_of_exhausted hb, Report.failed.injEq, eq_comm (b := x), eq_comm (b := c)]
    exact (and_iff_right hb).symm
  · rw [DepthCall.enter_of_ok (DepthBudget.enter_pos hb)]
    exact iff_of_false (fun h => by cases h) fun h => hb h.1

theorem leads_call {c : DepthCall} (hc : P c) (b : DepthBudget) :
    Leads P b ((run (.call c.act) b).log b) := by
  rw [run]
  cases c with
  | enter =>
    by_cases hb : b.remaining = 0
    · rw [DepthCall.act_enter_of_exhausted hb]
      exact ⟨.refused hb, trivial⟩
    · rw [DepthCall.act_enter (DepthBudget.enter_pos hb)]
      exact ⟨.enter hc (DepthBudget.enter_pos hb), trivial⟩
  | exit => exact ⟨.exit b hc, trivial⟩
  | reset => exact ⟨.reset b hc, trivial⟩

theorem leads_run {step : Step DepthBudget DepthCall}
    (h : Calls (fun m => ∃ c, P c ∧ m = DepthCall.act c) step) (b : DepthBudget) :
    Leads P b ((run step b).log b) := by
  induction step using Step.induct generalizing b with
  | call m =>
    obtain ⟨c, hc, rfl⟩ := h
    exact leads_call hc b
  | nested stops body ih =>
    have hbody := leads_runAll_of stops fun step hstep =>
      ih step hstep (callsAll_iff.1 h step hstep)
    rw [run]
    by_cases hb : b.remaining = 0
    · rw [DepthCall.enter_of_exhausted hb]
      exact ⟨.refused hb, trivial⟩
    · have henter := DepthBudget.enter_pos hb
      obtain ⟨hleads, hafter⟩ := hbody b.inside
      rw [DepthCall.enter_of_ok henter, ← DepthBudget.inside_of_enter henter]
      refine ⟨.opened (henter.trans (congrArg _ (DepthBudget.inside_of_enter henter).symm)),
        leads_append.2 ⟨hleads, ?_, trivial⟩⟩
      rw [hafter]
      exact .closed _
  | fork body ih => exact h.elim

theorem leads_runAll {steps : List (Step DepthBudget DepthCall)}
    (h : CallsAll (fun m => ∃ c, P c ∧ m = DepthCall.act c) steps) (stops : Bool)
    (b : DepthBudget) : Leads P b (Report.logAll b (runAll stops steps b).1) :=
  (leads_runAll_of stops (fun step hstep => leads_run (callsAll_iff.1 h step hstep)) b).1

/-- The guards that are open and the units that are out make up the depth. -/
theorem depth_of_paid {max : Nat} {xs : DepthLog} (hleads : Leads (· ≠ reset) (.full max) xs)
    (hpaid : Throughout Paid xs) (hbr : Throughout Bracketed xs) :
    (after (.full max) xs).depth = guardsOpen xs + unitsOut xs := by
  have hsum := depth_after hleads hpaid hbr
  have hexit : times (did exit) xs ≤ times (did enter) xs := hpaid.self
  have hclosed : times closed xs ≤ times opened xs := hbr.self
  rw [DepthBudget.depth_full] at hsum
  rw [guardsOpen, unitsOut]
  omega

/-- Opening and closing cancel each other out, so that a guard changes the depth by what was done
inside, the guards in its body included. -/
theorem depth_of_guard {b : DepthBudget} {rs : List (Report DepthBudget DepthCall)}
    (hleads : Leads (· ≠ reset) b (Report.logAll b rs))
    (hpaid : Throughout Paid (Report.logAll b rs)) {g : Report.Guard}
    (hg : g ∈ Report.guardsAll b rs) : g.after.max = g.before.max ∧
      g.after.depth + times (did exit) g.log = g.before.depth + times (did enter) g.log := by
  obtain ⟨xs, zs, hlog, hbefore⟩ := Report.standsIn_logAll hg
  have hbr := (Report.bracketed_logAll b rs).1
  rw [hlog, ← List.append_assoc] at hleads hpaid hbr
  -- the log up to the guard, and up to its end
  have hleads' := (leads_append.1 hleads).1
  have hsum := depth_after (leads_append.1 hleads').1 hpaid.take.take hbr.take.take
  have hsum' := depth_after hleads' hpaid.take hbr.take
  have hmax := max_after (leads_append.1 hleads').2
  have hcount := (Report.bracketed_log (.group g.body g.after) g.before).2
  have henter : times (did enter) (Report.log g.before (.group g.body g.after)) =
      times (did enter) g.log := by simp [Report.log, Report.Guard.log]
  have hexit : times (did exit) (Report.log g.before (.group g.body g.after)) =
      times (did exit) g.log := by simp [Report.log, Report.Guard.log]
  rw [after_append, hbefore, Report.after_log, times_append, times_append, times_append,
    times_append, henter, hexit] at hsum'
  rw [hbefore] at hsum hmax
  rw [Report.after_log] at hmax
  refine ⟨hmax, ?_⟩
  change g.after.depth + _ + _ = _ at hsum'
  omega

theorem guard_restores {b : DepthBudget} {rs : List (Report DepthBudget DepthCall)}
    (hleads : Leads (· ≠ reset) b (Report.logAll b rs))
    (hpaid : Throughout Paid (Report.logAll b rs)) {g : Report.Guard}
    (hg : g ∈ Report.guardsAll b rs) :
    g.after = g.before ↔ times (did enter) g.log = times (did exit) g.log := by
  obtain ⟨hmax, hsum⟩ := depth_of_guard hleads hpaid hg
  have hbefore := g.before.depth_add_remaining
  have hafter := g.after.depth_add_remaining
  constructor
  · intro heq
    have hsame : g.after.depth = g.before.depth := congrArg DepthBudget.depth heq
    omega
  · intro heq
    exact DepthBudget.ext hmax (by omega)

/-- A budget knows its maximum and what is left of it, and refuses a unit only where nothing is
left, whatever a script does to it. If without resets no more units are given back than are out,
its depth is what is open. For that it is enough that every body sees to it for itself, counting
only what it does outside of the guards in it. Whether a guard leaves the budget as it was depends
on all that was done inside, the guards in its body included: what they took and kept is still out
when it is closed. -/
theorem depth_accounting {steps : List (Step DepthBudget DepthCall)}
    (hsteps : CallsAll (fun m => ∃ c, m = DepthCall.act c) steps) (stops : Bool) (max : Nat) :
    let rs := (runAll stops steps (.full max)).1
    let log := Report.logAll (.full max) rs
    Throughout (fun xs =>
      let b := after (.full max) xs
      b.max = max ∧ b.remaining ≤ max ∧ b.depth = max - b.remaining ∧
      (∀ x c, enter.act b = .error x c ↔ b.remaining = 0 ∧ x = .depthExceeded max ∧ c = b) ∧
      ∀ stops (body : List (Step DepthBudget DepthCall)) x c,
        run (.nested stops body) b = .failed x c ↔
          b.remaining = 0 ∧ x = .depthExceeded max ∧ c = b) log ∧
    (Report.PaysOwn rs → (∀ g ∈ Report.guardsAll (.full max) rs, Report.PaysOwn g.body) →
      Throughout Paid log) ∧
    (CallsAll (fun m => ∃ c, c ≠ reset ∧ m = DepthCall.act c) steps → Throughout Paid log →
      Throughout (fun xs => Bracketed xs ∧
        (after (.full max) xs).depth = guardsOpen xs + unitsOut xs ∧
        guardsOpen xs + unitsOut xs ≤ max) log ∧
      ∀ g ∈ Report.guardsAll (.full max) rs,
        g.after = g.before ↔ times (did enter) g.log = times (did exit) g.log) := by
  intro rs log
  have hall : CallsAll (fun m => ∃ c, True ∧ m = DepthCall.act c) steps := by
    simpa only [true_and] using hsteps
  have hmax : Throughout (fun xs => (after (.full max) xs).max = max) log :=
    fun xs hxs => max_after ((leads_runAll hall stops (.full max)).front hxs)
  refine ⟨hmax.imp fun xs hb => ?_, Report.paid_logAll, fun hreset hpaid => ⟨fun xs hxs => ?_, ?_⟩⟩
  · intro b
    change b.max = max at hb
    rw [← hb]
    exact ⟨rfl, b.remaining_le, rfl, fun _ _ => DepthCall.act_enter_eq_error,
      fun _ _ _ _ => run_nested_eq_failed⟩
  · have hleads := (leads_runAll hreset stops (.full max)).front hxs
    have hbr := (Report.bracketed_logAll (.full max) rs).1
    have hdepth := depth_of_paid hleads (hpaid.front hxs) (hbr.front hxs)
    refine ⟨hbr xs hxs, hdepth, ?_⟩
    rw [← hdepth, DepthBudget.depth, hmax xs hxs]
    exact Nat.sub_le ..
  · exact fun g => guard_restores (leads_runAll hreset stops (.full max)) hpaid

/-- A guard whose body stops where it asks for more than is left. -/
theorem depth_accounting_stopped :
    let steps : List (Step DepthBudget DepthCall) :=
      [.call enter.act, .nested true [.call enter.act, .call exit.act], .call exit.act]
    let rs := (runAll false steps (.full 2)).1
    let log := Report.logAll (.full 2) rs
    log.map (fun p => (p.1, p.2.remaining)) =
      [(did enter, 1), (opened, 0), (refused, 0), (closed, 1), (did exit, 2)] ∧
    Report.PaysOwn rs ∧ (∀ g ∈ Report.guardsAll (.full 2) rs, Report.PaysOwn g.body) ∧
    (after (.full 2) (log.take 3)).depth = guardsOpen (log.take 3) + unitsOut (log.take 3) ∧
    ∀ g ∈ Report.guardsAll (.full 2) rs, g.after = g.before := by
  intro steps rs log
  have hsteps : CallsAll (fun m => ∃ c, m = DepthCall.act c) steps :=
    ⟨⟨enter, rfl⟩, ⟨⟨enter, rfl⟩, ⟨exit, rfl⟩, trivial⟩, ⟨exit, rfl⟩, trivial⟩
  have hreset : CallsAll (fun m => ∃ c, c ≠ reset ∧ m = DepthCall.act c) steps :=
    ⟨⟨enter, by decide, rfl⟩, ⟨⟨enter, by decide, rfl⟩, ⟨exit, by decide, rfl⟩, trivial⟩,
      ⟨exit, by decide, rfl⟩, trivial⟩
  have hown : Report.PaysOwn rs := by decide
  have hin : ∀ g ∈ Report.guardsAll (.full 2) rs, Report.PaysOwn g.body := by decide
  obtain ⟨-, hpaid, hexact⟩ := depth_accounting hsteps false 2
  obtain ⟨hdepth, hguards⟩ := hexact hreset (hpaid hown hin)
  refine ⟨by decide, hown, hin, (hdepth _ (List.take_prefix 3 log)).2.1,
    fun g hg => (hguards g hg).2 ?_⟩
  revert g
  decide

/-- A unit that the inner guard's body takes and keeps is missing after the outer guard, though the
outer guard's body did nothing by hand itself. -/
theorem unit_kept_inside :
    let steps : List (Step DepthBudget DepthCall) :=
      [.nested false [.nested false [.call enter.act]]]
    let rs := (runAll false steps (.full 4)).1
    let log := Report.logAll (.full 4) rs
    log.map (fun p => (p.1, p.2.remaining)) =
      [(opened, 3), (opened, 2), (did enter, 1), (closed, 2), (closed, 3)] ∧
    CallsAll (fun m => ∃ c, c ≠ reset ∧ m = DepthCall.act c) steps ∧
    Report.PaysOwn rs ∧ (∀ g ∈ Report.guardsAll (.full 4) rs, Report.PaysOwn g.body) ∧
    ∃ g ∈ Report.guardsAll (.full 4) rs, times (did enter) g.own = times (did exit) g.own ∧
      g.before.remaining = 4 ∧ g.after.remaining = 3 := by
  intro steps rs log
  have hreset : CallsAll (fun m => ∃ c, c ≠ reset ∧ m = DepthCall.act c) steps :=
    ⟨⟨⟨⟨enter, by decide, rfl⟩, trivial⟩, trivial⟩, trivial⟩
  have hown : Report.PaysOwn rs := by decide
  have hin : ∀ g ∈ Report.guardsAll (.full 4) rs, Report.PaysOwn g.body := by decide
  exact ⟨by decide, hreset, hown, hin, by decide⟩

end Step

end WireCodec
