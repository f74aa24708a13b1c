import WireCodec.Proofs.Layout
import WireCodec.Schema.Whole

/-!
# Encoding is laying out

An encoder works in one buffer: it remembers where the entries of a map start and
moves them about when all are written, with the buffers of outer maps below and
inner maps already moved within. What it leaves is nevertheless `Schema.wire`
behind what was there before, and it succeeds just where the lengths are short
enough and the containers fit the depth that is left.
-/
namespace WireCodec

open HasDepth (container)

namespace Encoder

/-- `m` succeeds just where `P` holds and `r` units of depth are left, and appends `bs`. -/
def Appends (m : Encoding Unit) (P : Prop) (r : Nat) (bs : Bytes) : Prop :=
  ∀ e e', m e = .ok () e' ↔ (P ∧ r ≤ e.depth.remaining) ∧ e' = ⟨e.buffer ++ bs, e.depth⟩

theorem Appends.mono {m : Encoding Unit} {P Q : Prop} {r r' : Nat} {bs bs' : Bytes}
    (h : Appends m P r bs) (hP : P ↔ Q) (hr : r = r') (hb : bs = bs') : Appends m Q r' bs' := by
  subst hr hb
  intro e e'
  rw [h e e', hP]

theorem appends_append (bs : Bytes) : Appends (append bs) True 0 bs := by
  intro e e'
  change EStateM.Result.ok () _ = .ok () e' ↔ _
  simp [eq_comm]

theorem appends_write (n : FormatName) (p : Primitive) (v : p.Val) :
    Appends (write n.format p v) (p.Short n.format.maxLength v) 0 (p.wire n v) := by
  intro e e'
  cases h : p.write n.format v with
  | ok bs =>
    obtain ⟨hs, rfl⟩ := (Primitive.write_eq_ok n).1 h
    simp only [write, h, hs]
    exact appends_append _ e e'
  | error err =>
    have hs : ¬ p.Short n.format.maxLength v := by
      intro hs
      rw [(Primitive.write_eq_ok n).2 ⟨hs, rfl⟩] at h
      cases h
    simp only [write, h, hs, false_and, iff_false]
    exact throw_ne_ok

theorem Appends.bind {m m' : Encoding Unit} {P Q : Prop} {r r' : Nat} {bs bs' : Bytes}
    (h : Appends m P r bs) (h' : Appends m' Q r' bs') :
    Appends (do m; m') (P ∧ Q) (max r r') (bs ++ bs') := by
  intro e e'
  rw [bind_eq_ok, Nat.max_le]
  constructor
  · intro hrun
    obtain ⟨⟨⟩, e₁, h₁, h₂⟩ := hrun
    obtain ⟨⟨hp, hr⟩, rfl⟩ := (h _ _).1 h₁
    obtain ⟨⟨hq, hr'⟩, rfl⟩ := (h' _ _).1 h₂
    exact ⟨⟨⟨hp, hq⟩, hr, hr'⟩, by rw [List.append_assoc]⟩
  · intro hspec
    obtain ⟨⟨⟨hp, hq⟩, hr, hr'⟩, rfl⟩ := hspec
    refine ⟨(), _, (h _ _).2 ⟨⟨hp, hr⟩, rfl⟩, (h' _ _).2 ⟨⟨hq, hr'⟩, ?_⟩⟩
    rw [List.append_assoc]

theorem container_run {α : Type} {m : Encoding α} {e e' : Encoder} {a : α} :
    container m e = .ok a e' ↔
      ∃ b u, e.depth.enter = .ok b ∧ m ⟨e.buffer, b⟩ = .ok a u ∧ e' = ⟨u.buffer, u.depth.exit⟩ :=
  container_eq_ok

/-- The container takes a unit of depth and gives it back. -/
theorem Appends.container {m : Encoding Unit} {P : Prop} {r : Nat} {bs : Bytes}
    (h : Appends m P r bs) : Appends (container m) P (1 + r) bs := by
  intro e e'
  rw [container_run]
  constructor
  · intro hrun
    obtain ⟨b, u, hb, hm, rfl⟩ := hrun
    obtain ⟨⟨hp, hr⟩, rfl⟩ := (h _ _).1 hm
    obtain ⟨-, hrem⟩ := DepthBudget.enter_eq_ok.1 hb
    refine ⟨⟨hp, ?_⟩, ?_⟩
    · rw [hrem, Nat.add_comm]
      exact Nat.succ_le_succ hr
    · simp only [DepthBudget.exit_of_enter hb]
  · intro hspec
    obtain ⟨⟨hp, hr⟩, rfl⟩ := hspec
    have hb : e.depth.enter = .ok _ := DepthBudget.enter_pos (by omega)
    refine ⟨_, _, hb, (h _ _).2 ⟨⟨hp, ?_⟩, rfl⟩, ?_⟩
    · simp only
      omega
    · simp only [DepthBudget.exit_of_enter hb]

/-- Where byte strings start that are written one after the other from `o` on. -/
def starts : Nat → List Bytes → List Nat
  | _, [] => []
  | o, c :: cs => o :: starts (o + c.length) cs

@[simp] theorem starts_nil (o : Nat) : starts o [] = [] := rfl
@[simp] theorem starts_cons (o : Nat) (c : Bytes) (cs : List Bytes) :
    starts o (c :: cs) = o :: starts (o + c.length) cs := rfl

variable {α : Type} {f : α → Encoding Unit} {P : α → Prop} {r : α → Nat} {g : α → Bytes}

theorem eachAt_cons_eq_ok {a : α} {as : List α} {e e' : Encoder} {os : List Nat} :
    eachAt f (a :: as) e = .ok os e' ↔
      ∃ e₁ os', f a e = .ok () e₁ ∧ eachAt f as e₁ = .ok os' e' ∧ e.offset :: os' = os := by
  simp only [eachAt, bind_eq_ok, get_eq_ok, pure_eq_ok]
  constructor
  · intro hrun
    obtain ⟨_, _, ⟨rfl, rfl⟩, ⟨⟩, e₁, h₁, os', _, h₂, rfl, rfl⟩ := hrun
    exact ⟨e₁, os', h₁, h₂, rfl⟩
  · intro hspec
    obtain ⟨e₁, os', h₁, h₂, rfl⟩ := hspec
    exact ⟨_, _, ⟨rfl, rfl⟩, (), e₁, h₁, os', e', h₂, rfl, rfl⟩

theorem eachAt_eq_ok {as : List α} (h : ∀ a ∈ as, Appends (f a) (P a) (r a) (g a))
    {e e' : Encoder} {os : List Nat} :
    eachAt f as e = .ok os e' ↔
      ((∀ a ∈ as, P a) ∧ deepest (as.map r) ≤ e.depth.remaining) ∧
        os = starts e.buffer.length (as.map g) ∧ e' = ⟨e.buffer ++ (as.map g).flatten, e.depth⟩ := by
  induction as generalizing e os with
  | nil =>
    simp only [eachAt, pure_eq_ok]
    simp [eq_comm]
  | cons a as ih =>
    have ha := h a List.mem_cons_self
    have hs := fun b hb => h b (List.mem_cons_of_mem a hb)
    rw [eachAt_cons_eq_ok, List.forall_mem_cons, List.map_cons, List.map_cons, deepest_cons,
      Nat.max_le, starts_cons, List.flatten_cons]
    constructor
    · intro hrun
      obtain ⟨e₁, os', h₁, h₂, rfl⟩ := hrun
      obtain ⟨⟨hP, hr⟩, rfl⟩ := (ha _ _).1 h₁
      obtain ⟨⟨hPs, hrs⟩, rfl, rfl⟩ := (ih hs).1 h₂
      refine ⟨⟨⟨hP, hPs⟩, hr, hrs⟩, ?_, ?_⟩
      · rw [List.length_append]
        rfl
      · rw [List.append_assoc]
    · intro hspec
      obtain ⟨⟨⟨hP, hPs⟩, hr, hrs⟩, rfl, rfl⟩ := hspec
      refine ⟨_, _, (ha _ _).2 ⟨⟨hP, hr⟩, rfl⟩, (ih hs).2 ⟨⟨hPs, hrs⟩, rfl, ?_⟩, ?_⟩
      · rw [List.append_assoc]
      · rw [List.length_append]
        rfl

/-- Entries that were written one after the other are no bad ones. -/
theorem firstBad?_starts (o : Nat) (cs : List Bytes) :
    firstBad? (o + cs.flatten.length) (starts o cs) = none := by
  induction cs generalizing o with
  | nil => rfl
  | cons c cs ih =>
    cases cs with
    | nil => simp [firstBad?]
    | cons d ds =>
      have ih := ih (o + c.length)
      simp only [starts_cons, List.flatten_cons, List.length_append, firstBad?] at ih ⊢
      rw [if_pos (by omega), ← ih]
      congr 1
      omega

/-- The starts cut the buffer where it was put together. -/
theorem entriesAt_starts (w : Bytes) (cs : List Bytes) :
    entriesAt (w ++ cs.flatten) (starts w.length cs) = cs := by
  induction cs generalizing w with
  | nil => rfl
  | cons c cs ih =>
    cases cs with
    | nil => simp [entriesAt]
    | cons d ds =>
      have ih := ih (w ++ c)
      rw [List.length_append, List.append_assoc, ← List.flatten_cons] at ih
      rw [starts_cons, starts_cons, entriesAt, ← starts_cons, ih]
      simp

/-- Fewer than two entries are left as they are. -/
def sorted (F : Format) : List Bytes → List Bytes
  | c :: d :: cs => F.sortEntries (c :: d :: cs)
  | cs => cs

theorem sorted_eq (n : FormatName) (cs : List Bytes) : sorted n.format cs = n.arrange cs := by
  match cs with
  | [] => exact (List.perm_nil.1 (n.arrange_perm [])).symm
  | [c] => exact (List.perm_singleton.1 (n.arrange_perm [c])).symm
  | c :: d :: cs => exact n.sortEntries_eq _

/-- Sorting what has just been written leaves the rest of the buffer. -/
theorem sortEntries_starts_eq (F : Format) (w : Bytes) (cs : List Bytes) (d : DepthBudget) :
    sortEntries F (starts w.length cs) ⟨w ++ cs.flatten, d⟩ =
      .ok () ⟨w ++ (sorted F cs).flatten, d⟩ := by
  have hbad := firstBad?_starts w.length cs
  rw [← List.length_append] at hbad
  simp only [sortEntries, hbad, entriesAt_starts]
  match cs with
  | [] => simp [sorted]
  | [c] => simp [sorted]
  | c :: d :: cs => simp [sorted]

theorem sortEntries_starts (n : FormatName) (w : Bytes) (cs : List Bytes) (d : DepthBudget) :
    sortEntries n.format (starts w.length cs) ⟨w ++ cs.flatten, d⟩ =
      .ok () ⟨w ++ (n.arrange cs).flatten, d⟩ := by
  rw [sortEntries_starts_eq, sorted_eq]

theorem appends_entries (n : FormatName) {as : List α}
    (h : ∀ a ∈ as, Appends (f a) (P a) (r a) (g a)) :
    Appends (entries n.format f as) (as.length ≤ n.format.maxLength ∧ ∀ a ∈ as, P a)
      (1 + deepest (as.map r)) (n.lengthBytes as.length ++ (n.arrange (as.map g)).flatten) := by
  have hbody : Appends (do sortEntries n.format (← eachAt f as)) (∀ a ∈ as, P a)
      (deepest (as.map r)) (n.arrange (as.map g)).flatten := by
    intro e e'
    rw [bind_eq_ok]
    constructor
    · intro hrun
      obtain ⟨os, e₁, h₁, h₂⟩ := hrun
      obtain ⟨hfit, rfl, rfl⟩ := (eachAt_eq_ok h).1 h₁
      rw [sortEntries_starts] at h₂
      cases h₂
      exact ⟨hfit, rfl⟩
    · intro hspec
      obtain ⟨hfit, rfl⟩ := hspec
      exact ⟨_, _, (eachAt_eq_ok h).2 ⟨hfit, rfl, rfl⟩, sortEntries_starts ..⟩
  have hlen := appends_write n .length as.length
  exact (hlen.bind hbody.container).mono Iff.rfl (Nat.zero_max _) rfl

theorem each_eq_ok {as : List α} {e e' : Encoder} :
    each f as e = .ok () e' ↔ ∃ os, eachAt f as e = .ok os e' := by
  induction as generalizing e with
  | nil => simp [each, eachAt, pure_eq_ok]
  | cons a as ih =>
    simp only [each, bind_eq_ok, eachAt_cons_eq_ok, ih]
    constructor
    · intro hrun
      obtain ⟨⟨⟩, e₁, h₁, os, h₂⟩ := hrun
      exact ⟨_, e₁, os, h₁, h₂, rfl⟩
    · intro hspec
      obtain ⟨_, e₁, os, h₁, h₂, -⟩ := hspec
      exact ⟨(), e₁, h₁, os, h₂⟩

theorem appends_list (n : FormatName) {as : List α}
    (h : ∀ a ∈ as, Appends (f a) (P a) (r a) (g a)) :
    Appends (list n.format f as) (as.length ≤ n.format.maxLength ∧ ∀ a ∈ as, P a)
      (1 + deepest (as.map r)) (n.lengthBytes as.length ++ as.flatMap g) := by
  have hbody : Appends (each f as) (∀ a ∈ as, P a) (deepest (as.map r)) (as.flatMap g) := by
    intro e e'
    rw [each_eq_ok, List.flatMap_def]
    constructor
    · intro hrun
      obtain ⟨os, hos⟩ := hrun
      obtain ⟨hfit, -, rfl⟩ := (eachAt_eq_ok h).1 hos
      exact ⟨hfit, rfl⟩
    · intro hspec
      obtain ⟨hfit, rfl⟩ := hspec
      exact ⟨_, (eachAt_eq_ok h).2 ⟨hfit, rfl, rfl⟩⟩
  have hlen := appends_write n .length as.length
  exact (hlen.bind hbody.container).mono Iff.rfl (Nat.zero_max _) rfl

theorem appends_tree (n : FormatName) (t : Tree) :
    Appends (tree n.format t) (t.Short n.format.maxLength) t.depth (t.wire n) := by
  induction t using Tree.induct with
  | h ts ih =>
    rw [tree_node]
    exact (appends_list n ih).mono Tree.short_node.symm (Tree.depth_node ts).symm
      (Tree.wire_node n ts).symm

end Encoder

open Encoder in
/-- Encoding a value succeeds just where its lengths are short and its containers fit,
and appends the value's bytes whatever the buffer holds. -/
theorem Schema.appends_encode (n : FormatName) (s : Schema) (v : s.Val) :
    Appends (s.encode n.format v) (s.Short n.format.maxLength v) (s.depth v) (s.wire n v) := by
  induction s with
  | scalar s => exact appends_write n (.scalar s) v
  | option s ih =>
    cases v with
    | none => exact appends_write n .presence false
    | some x =>
      have h := (appends_write n .presence true).bind (ih x)
      exact h.mono ⟨And.right, fun hs => ⟨trivial, hs⟩⟩ (Nat.zero_max _) rfl
  | boxed s ih => exact ih v
  | pair a b iha ihb => exact (iha v.1).bind (ihb v.2)
  | seq s ih => exact appends_list n fun x _ => ih x
  | map it k v ihk ihv => exact appends_entries n fun e _ => (ihk e.1).bind (ihv e.2)
  | set it k ih => exact appends_entries n fun x _ => ih x
  | framed s ih => exact (ih v).container
  | choice count alt ih =>
    have h := (appends_write n .variantIndex (.ofNat v.1)).bind (ih v.1 v.2)
    apply h.mono ⟨And.right, fun hs => ⟨trivial, hs⟩⟩ (Nat.zero_max _)
    exact congrArg (· ++ _) (n.variantBytes_ofNat v.1)
  | tree => exact appends_tree n v

theorem Encoder.withConfig_eq_ok {F : Format} {c : Config} {e : Encoder} :
    withConfig F c = .ok e ↔ c.validate F = .ok () ∧ e = ⟨[], .full c.maxContainerDepth⟩ := by
  rw [withConfig, except_bind_eq_ok]
  constructor
  · intro hrun
    obtain ⟨⟨⟩, hc, he⟩ := hrun
    cases he
    exact ⟨hc, rfl⟩
  · intro hspec
    obtain ⟨hc, rfl⟩ := hspec
    exact ⟨(), hc, rfl⟩

theorem Schema.toBytes_eq_ok {n : FormatName} {s : Schema} {c : Config} {v : s.Val} {bs : Bytes} :
    s.toBytes n.format c v = .ok bs ↔ c.validate n.format = .ok () ∧
      (s.Short n.format.maxLength v ∧ s.depth v ≤ c.maxContainerDepth) ∧ bs = s.wire n v := by
  have happ := appends_encode n s v ⟨[], .full c.maxContainerDepth⟩
  rw [toBytes, except_bind_eq_ok]
  constructor
  · intro hrun
    obtain ⟨_, hconf, h⟩ := hrun
    obtain ⟨hc, rfl⟩ := Encoder.withConfig_eq_ok.1 hconf
    split at h
    · rename_i e' he
      obtain ⟨hfit, rfl⟩ := (happ e').1 he
      cases h
      exact ⟨hc, hfit, rfl⟩
    · cases h
  · intro hspec
    obtain ⟨hc, hfit, rfl⟩ := hspec
    refine ⟨_, Encoder.withConfig_eq_ok.2 ⟨hc, rfl⟩, ?_⟩
    rw [(happ _).2 ⟨hfit, rfl⟩]
    rfl

/-- Sorting the entries of maps in place, inner maps before outer ones, comes to laying
the value out behind what the buffer held. -/
theorem Schema.encode_lays_out (n : FormatName) (s : Schema) (v : s.Val) (e e' : Encoder)
    (h : s.encode n.format v e = .ok () e') : e'.buffer = e.buffer ++ s.wire n v := by
  obtain ⟨-, rfl⟩ := (appends_encode n s v e e').1 h
  rfl

theorem Schema.encode_lays_out_nested :
    [9, 3, 1, 0, 1, 1, 3, 0, 1, 1, 2, 0, 0, 2, 0, 1, 1, 0, 2, 0, 1, 0, 1, 0, 1] =
      [9] ++ (map .ascending (set .ascending (scalar (.uint .w16)))
          (map .unordered (scalar (.uint .w16)) (scalar .bool))).wire .canonical
        [([1#16, 256#16], [(1#16, true), (256#16, false)]), ([2#16], []),
          ([256#16], [(3#16, true)])] :=
  encode_lays_out .canonical (map .ascending (set .ascending (scalar (.uint .w16)))
      (map .unordered (scalar (.uint .w16)) (scalar .bool)))
    [([1#16, 256#16], [(1#16, true), (256#16, false)]), ([2#16], []), ([256#16], [(3#16, true)])]
    ⟨[9], .full 4⟩
    ⟨[9, 3, 1, 0, 1, 1, 3, 0, 1, 1, 2, 0, 0, 2, 0, 1, 1, 0, 2, 0, 1, 0, 1, 0, 1], .full 4⟩ (by cbv)

end WireCodec
