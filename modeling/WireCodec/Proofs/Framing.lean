import WireCodec.Proofs.DepthNeed

/-!
# Every run leaves the codec in order

A run may fail at any step, inside any number of containers and between two entries of a map
that is still to be sorted. However it ends, it has given back the depth it took. A run of an
encoder has only appended, and what it appended and how it ended do not depend on what the
buffer held; a run of a decoder has gone forward within its input. Both hold for every format,
the second as long as the format itself reads forward.
-/
namespace WireCodec

namespace Frame

variable {ι P σ α β : Type} [HasDepth σ]

/-- From every place `m` gets to one that `R` allows and has its depth back. It does so in one
way, whatever the run has no part in. -/
def Confined (F : Frame ι P σ) (R : P → P → Prop) (m : EStateM Error σ α) : Prop :=
  ∀ p b, ∃ r q, R p q ∧ ∀ i, m (F.state i p b) = ended r (F.state i q b)

variable {F : Frame ι P σ} {R : P → P → Prop} [IsPreorder P R] {m : EStateM Error σ α}
  {f : α → EStateM Error σ β}

theorem Confined.pure (a : α) : F.Confined R (pure a) :=
  fun p _ => ⟨.ok a, p, refl_of R p, fun _ => rfl⟩

theorem Confined.throw (x : Error) : F.Confined R (throw x : EStateM Error σ α) :=
  fun p _ => ⟨.error x, p, refl_of R p, fun _ => rfl⟩

theorem Confined.bind (h : F.Confined R m) (hf : ∀ a, F.Confined R (f a)) :
    F.Confined R (m >>= f) := by
  intro p b
  obtain ⟨r, q, hq, hm⟩ := h p b
  cases r with
  | error x => exact ⟨.error x, q, hq, fun i => bind_of_error (hm i)⟩
  | ok a =>
    obtain ⟨r, q', hq', hrun⟩ := hf a q b
    exact ⟨r, q', trans_of R hq hq', fun i => (bind_of_ok (hm i)).trans (hrun i)⟩

theorem Confined.map (h : F.Confined R m) (g : α → β) : F.Confined R (do return g (← m)) :=
  h.bind fun a => .pure (g a)

/-- The container is closed on every way out of its body. -/
theorem Confined.container (h : F.Confined R m) : F.Confined R (HasDepth.container m) := by
  intro p b
  by_cases hr : b.remaining = 0
  · exact ⟨.error (.depthExceeded b.max), p, refl_of R p, fun i => container_of_exhausted hr i m⟩
  · have hb := DepthBudget.enter_pos hr
    obtain ⟨r, q, hq, hm⟩ := h p _
    cases r with
    | ok a => exact ⟨.ok a, q, hq, fun i => container_of_ok hb (hm i)⟩
    | error x => exact ⟨.error x, q, hq, fun i => container_of_error hb (hm i)⟩

end Frame

namespace Encoder

variable {α : Type} {f : α → Encoding Unit} {as : List α}

/-- What a run appends is the same behind every buffer. -/
abbrev Appending (m : Encoding Unit) : Prop := frame.Confined List.IsPrefix m

theorem appending_write (F : Format) (p : Primitive) (v : p.Val) : Appending (write F p v) := by
  rw [Appending, write]
  cases p.write F v with
  | error x => exact .throw x
  | ok bs =>
    intro x b
    refine ⟨.ok (), x ++ bs, List.prefix_append x bs, fun w => ?_⟩
    change EStateM.Result.ok () (⟨w ++ x ++ bs, b⟩ : Encoder) = _
    rw [List.append_assoc]
    rfl

theorem appending_each (h : ∀ a ∈ as, Appending (f a)) : Appending (each f as) := by
  induction as with
  | nil => exact .pure ()
  | cons a as ih =>
    rw [List.forall_mem_cons] at h
    exact h.1.bind fun _ => ih h.2

theorem appending_list (F : Format) (h : ∀ a ∈ as, Appending (f a)) : Appending (list F f as) :=
  (appending_write F .length as.length).bind fun _ => (appending_each h).container

theorem appending_tree (F : Format) (t : Tree) : Appending (tree F t) := by
  induction t using Tree.induct with
  | h ts ih =>
    rw [tree_node]
    exact appending_list F ih

/-- The loop that notes where entries start notes other places in another buffer, but always
the starts of the same parts. -/
theorem eachAt_cases (h : ∀ a ∈ as, Appending (f a)) (x : Bytes) (b : DepthBudget) :
    (∃ cs : List Bytes, ∀ w, eachAt f as (frame.state w x b) =
        .ok (starts (w ++ x).length cs) (frame.state w (x ++ cs.flatten) b)) ∨
      ∃ err y, x <+: y ∧ ∀ w, eachAt f as (frame.state w x b) = .error err (frame.state w y b) := by
  induction as generalizing x with
  | nil =>
    refine .inl ⟨[], fun w => ?_⟩
    rw [List.flatten_nil, List.append_nil]
    rfl
  | cons a as ih =>
    rw [List.forall_mem_cons] at h
    obtain ⟨r, _, ⟨c, rfl⟩, ha⟩ := h.1 x b
    have hcons : ∀ e, eachAt f (a :: as) e =
        (f a >>= fun _ => do return e.offset :: (← eachAt f as)) e := fun _ => rfl
    simp only [hcons]
    cases r with
    | error err => exact .inr ⟨err, x ++ c, List.prefix_append x c, fun w => bind_of_error (ha w)⟩
    | ok u =>
      obtain ⟨cs, hcs⟩ | ⟨err, y, hy, herr⟩ := ih h.2 (x ++ c)
      · refine .inl ⟨c :: cs, fun w => ?_⟩
        have hstart : (w ++ (x ++ c)).length = (w ++ x).length + c.length := by
          simp only [List.length_append, Nat.add_assoc]
        rw [bind_of_ok (ha w), bind_of_ok (hcs w), starts_cons, List.flatten_cons, hstart,
          List.append_assoc x c]
        rfl
      · refine .inr ⟨err, y, (List.prefix_append x c).trans hy, fun w => ?_⟩
        rw [bind_of_ok (ha w), bind_of_error (herr w)]

/-- Sorting moves what the entries appended and nothing before it. -/
theorem appending_entries (F : Format) (h : ∀ a ∈ as, Appending (f a)) :
    Appending (entries F f as) := by
  refine (appending_write F .length as.length).bind fun _ => Frame.Confined.container ?_
  intro x b
  obtain ⟨cs, hcs⟩ | ⟨err, y, hy, herr⟩ := eachAt_cases h x b
  · refine ⟨.ok (), x ++ (sorted F cs).flatten, List.prefix_append .., fun w => ?_⟩
    have hsort := sortEntries_starts_eq F (w ++ x) cs b
    rw [List.append_assoc, List.append_assoc] at hsort
    exact (bind_of_ok (hcs w)).trans hsort
  · exact ⟨.error err, y, hy, fun w => bind_of_error (herr w)⟩

end Encoder

open Encoder in
/-- However encoding ends, it has only added to the buffer and given back its depth. -/
theorem Schema.appending_encode (F : Format) (s : Schema) (v : s.Val) :
    Appending (s.encode F v) := by
  induction s with
  | scalar s => exact appending_write F (.scalar s) v
  | option s ih =>
    cases v with
    | none => exact appending_write F .presence false
    | some v => exact (appending_write F .presence true).bind fun _ => ih v
  | boxed s ih => exact ih v
  | pair a b iha ihb => exact (iha v.1).bind fun _ => ihb v.2
  | seq s ih => exact appending_list F fun u _ => ih u
  | map it k t ihk iht => exact appending_entries F fun e _ => (ihk e.1).bind fun _ => iht e.2
  | set it k ih => exact appending_entries F fun u _ => ih u
  | framed s ih => exact (ih v).container
  | choice count alt ih =>
    exact (appending_write F .variantIndex (.ofNat v.1)).bind fun _ => ih v.1 v.2
  | tree => exact appending_tree F v

/-- The places within an input. -/
abbrev Place (bs : Bytes) := { o : Nat // o ≤ bs.length }

namespace Cursor

/-- `m` goes forward within the input, if it moves at all. -/
def Forward {α : Type} (m : Reading α) : Prop :=
  ∀ (bs : Bytes) (o : Place bs), ∃ r, ∃ o' : Place bs, o ≤ o' ∧ m ⟨bs, o⟩ = ended r ⟨bs, o'⟩

/-- A run beside itself, from a place on. -/
def onward {bs : Bytes} (o : Place bs) : Coupling Cursor where
  states c c' := c = c' ∧ ∃ o' : Place bs, o ≤ o' ∧ c = ⟨bs, o'⟩
  excused _ _ := False
  fails x _ y := x = y

theorem forward_iff {α : Type} {m : Reading α} :
    Forward m ↔ ∀ (bs : Bytes) (o : Place bs), (onward o).Coupled m m := by
  constructor
  · rintro h bs o _ _ ⟨rfl, o₁, ho, rfl⟩
    obtain ⟨r, o₂, hle, hm⟩ := h bs o₁
    rw [hm]
    cases r with
    | ok a => exact .ok ⟨rfl, o₂, ho.trans hle, rfl⟩
    | error x => exact .error ⟨rfl, o₂, ho.trans hle, rfl⟩ rfl
  · intro h bs o
    have ha := h bs o ⟨bs, o⟩ ⟨bs, o⟩ ⟨rfl, o, le_rfl, rfl⟩
    cases hm : m ⟨bs, o⟩ with
    | ok a c =>
      rw [hm] at ha
      obtain ⟨_, -, -, o', ho, rfl⟩ := ha.of_ok
      exact ⟨.ok a, o', ho, rfl⟩
    | error x c =>
      rw [hm] at ha
      obtain hx | ⟨_, _, -, ⟨-, o', ho, rfl⟩, -⟩ := ha.of_error
      · exact hx.elim
      · exact ⟨.error x, o', ho, rfl⟩

theorem forward_take (k : Nat) : Forward (take k) := by
  rintro bs ⟨o, ho⟩
  have hrem : (⟨bs, o⟩ : Cursor).remaining = bs.length - o := rfl
  simp only [take]
  split
  · exact ⟨.ok _, ⟨o + k, by omega⟩, Nat.le_add_right o k, rfl⟩
  · exact ⟨.error _, ⟨o, ho⟩, le_rfl, rfl⟩

end Cursor

/-- A format that reads its lengths and variant indexes forward. -/
structure Format.Forward (F : Format) : Prop where
  length : Cursor.Forward F.decodeLength
  variantIndex : Cursor.Forward F.decodeVariantIndex

namespace Cursor

variable {bs : Bytes} (o : Place bs)

theorem onPrimitives_onward (n : FormatName) : (onward o).OnPrimitives n where
  take k := forward_iff.1 (forward_take k) bs o
  refusal _ _ _ _ _ := .inr rfl
  char c c' _ h := by
    obtain ⟨rfl, -⟩ := h
    exact .inr rfl
  text c c' _ x h := by
    obtain ⟨rfl, -⟩ := h
    exact .inr rfl

theorem onHooks_onward {F : Format} (hF : F.Forward) : (onward o).OnHooks F where
  take k := forward_iff.1 (forward_take k) bs o
  length := forward_iff.1 hF.length bs o
  variantIndex := forward_iff.1 hF.variantIndex bs o
  value _ _ _ _ _ := .inr rfl
  range _ _ _ _ := .inr rfl
  char c c' _ h := by
    obtain ⟨rfl, -⟩ := h
    exact .inr rfl
  text c c' _ x h := by
    obtain ⟨rfl, -⟩ := h
    exact .inr rfl

theorem forward_read {F : Format} (hF : F.Forward) (p : Primitive) : Forward (p.read F) :=
  forward_iff.2 fun _ o => (onHooks_onward o hF).read p

end Cursor

theorem FormatName.forward (n : FormatName) : n.format.Forward where
  length := Cursor.forward_iff.2 fun _ o => (Cursor.onPrimitives_onward o n).decodeLength
  variantIndex := Cursor.forward_iff.2 fun _ o => (Cursor.onPrimitives_onward o n).decodeVariantIndex

namespace Decoder

/-- The states over one input. -/
def within (bs : Bytes) : Frame Unit (Place bs) Decoder where
  state _ o b := ⟨⟨bs, o⟩, b⟩
  final _ := True
  budget_state _ _ _ := rfl
  setBudget_state _ _ _ _ := rfl

variable {bs : Bytes} {F : Format} {α β : Type}

/-- A run goes forward within the input, if it moves at all. -/
abbrev Advancing (bs : Bytes) (m : Decoding α) : Prop := (within bs).Confined (· ≤ ·) m

theorem advancing_get_bind {f : Decoder → Decoding α} (h : ∀ d, Advancing bs (f d)) :
    Advancing bs (do f (← get)) := fun o b => h ⟨⟨bs, o⟩, b⟩ o b

theorem advancing_reading {m : Reading α} (h : Cursor.Forward m) : Advancing bs (reading m) := by
  intro o b
  obtain ⟨r, o', ho, hm⟩ := h bs o
  refine ⟨r, o', ho, fun _ => ?_⟩
  simp only [within, reading, hm]
  cases r <;> rfl

theorem advancing_read (hF : F.Forward) (p : Primitive) : Advancing bs (read F p) :=
  advancing_reading (Cursor.forward_read hF p)

theorem advancing_each {f : Decoding α} (h : Advancing bs f) (k : Nat) :
    Advancing bs (each f k) := by
  induction k with
  | zero => exact .pure []
  | succ k ih => exact h.bind fun a => ih.map (a :: ·)

theorem advancing_list (hF : F.Forward) {f : Decoding α} (h : Advancing bs f) :
    Advancing bs (list F f) :=
  (advancing_read hF .length).bind fun k => (advancing_each h k).container

theorem advancing_consumed (a b : Nat) : Advancing bs (consumed a b) := by
  intro o bud
  by_cases h : a ≤ b ∧ b ≤ o.val
  · exact ⟨.ok (bs.extract a b), o, le_rfl, fun _ => if_pos h⟩
  · exact ⟨.error (.invalidRange "map key" a b o), o, le_rfl, fun _ => if_neg h⟩

theorem advancing_checkAfter (F : Format) (before : Option (Nat × Nat)) (start stop : Nat) :
    Advancing bs (checkAfter F before start stop) := by
  cases before with
  | none => exact .pure ()
  | some p =>
    refine (advancing_consumed p.1 p.2).bind fun k => (advancing_consumed start stop).bind fun l => ?_
    cases F.checkKeyOrder k l with
    | ok u => exact .pure u
    | error x => exact .throw x

variable {key : Decoding α} {value : Decoding β}

theorem advancing_eachEntry (hk : Advancing bs key) (hv : Advancing bs value)
    (before : Option (Nat × Nat)) (m : Nat) : Advancing bs (eachEntry F key value before m) := by
  induction m generalizing before with
  | zero => exact .pure []
  | succ m ih =>
    refine advancing_get_bind fun d => hk.bind fun k => advancing_get_bind fun e => ?_
    refine (advancing_checkAfter F before d.offset e.offset).bind fun _ => ?_
    exact hv.bind fun v => (ih _).map _

theorem advancing_entries (hF : F.Forward) (hk : Advancing bs key) (hv : Advancing bs value) :
    Advancing bs (entries F key value) :=
  (advancing_read hF .length).bind fun m => (advancing_eachEntry hk hv none m).container

theorem advancing_readVariant (hF : F.Forward) (count : Nat) :
    Advancing bs (readVariant F count) := by
  refine (advancing_reading hF.variantIndex).bind fun i => ?_
  split
  · exact .pure _
  · exact .throw _

theorem advancing_treeBelow (hF : F.Forward) (k : Nat) : Advancing bs (treeBelow F k) := by
  induction k with
  | zero => exact fun o b => ⟨.error (.depthExceeded b.max), o, le_rfl, fun _ => rfl⟩
  | succ k ih => exact (advancing_list hF ih).map Tree.node

end Decoder

open Decoder in
/-- However decoding ends, it has only moved forward and given back its depth. -/
theorem Schema.advancing_decode {F : Format} (hF : F.Forward) (s : Schema) (bs : Bytes) :
    Advancing bs (s.decode F) := by
  induction s with
  | scalar s => exact advancing_read hF (.scalar s)
  | option s ih =>
    refine (advancing_read hF .presence).bind fun present : Bool => ?_
    cases present with
    | false => exact .pure none
    | true => exact ih.map some
  | boxed s ih => exact ih
  | pair a b iha ihb => exact iha.bind fun x => ihb.map (x, ·)
  | seq s ih => exact advancing_list hF ih
  | map it k v ihk ihv => exact (advancing_entries hF ihk ihv).map _
  | set it k ih =>
    exact (advancing_entries hF ih (.pure ())).map
      fun es => Entries.keysOfList k.compare (es.map (·.1))
  | framed s ih => exact ih.container
  | choice count alt ih =>
    exact (advancing_readVariant hF count).bind fun i =>
      (ih i).map fun x => (⟨i, x⟩ : (Schema.choice count alt).Val)
  | tree => exact fun o b => advancing_treeBelow hF (b.remaining + 1) o b

namespace Schema

/-- Every run, however it ends, leaves the codec in order. Encoding appends to the buffer, and
what it appends and how it ends is the same for every buffer; decoding ends at a place of the same
input that is not before the one it started at, if the format reads forward, and both formats do.
Neither changes the depth that is left. -/
theorem run_well_framed (s : Schema) :
    (∀ (F : Format) (v : s.Val) (b : DepthBudget), ∃ (r : Except Error Unit) (x : Bytes),
      ∀ w, s.encode F v ⟨w, b⟩ = ended r ⟨w ++ x, b⟩) ∧
    (∀ n : FormatName, n.format.Forward) ∧
    ∀ F : Format, F.Forward → ∀ (bs : Bytes) (o : Nat) (b : DepthBudget), o ≤ bs.length →
      ∃ (r : Except Error s.Val) (o' : Nat), o ≤ o' ∧ o' ≤ bs.length ∧
        s.decode F ⟨⟨bs, o⟩, b⟩ = ended r ⟨⟨bs, o'⟩, b⟩ := by
  refine ⟨fun F v b => ?_, FormatName.forward, fun F hF bs o b ho => ?_⟩
  · obtain ⟨r, x, -, hx⟩ := appending_encode F s v [] b
    refine ⟨r, x, fun w => ?_⟩
    rw [← Encoder.state_nil w b]
    exact hx w
  · obtain ⟨r, o', hle, hrun⟩ := advancing_decode hF s bs ⟨o, ho⟩ b
    exact ⟨r, o', hle, o'.property, hrun ()⟩

theorem run_well_framed_map :
    (∃ (r : Except Error Unit) (x : Bytes), ∀ w,
      (map .unordered (scalar .char) tree).encode FormatName.canonical.format
        [('b', .node []), ('a', .node [.node []])] ⟨w, .full 2⟩ = ended r ⟨w ++ x, .full 2⟩) ∧
    ∃ (r : Except Error (List (Char × Tree))) (o' : Nat), 1 ≤ o' ∧ o' ≤ 7 ∧
      (map .unordered (scalar .char) tree).decode FormatName.canonical.format
        ⟨⟨[9, 2, 98, 0, 97, 0, 7], 1⟩, .full 2⟩ = ended r ⟨⟨[9, 2, 98, 0, 97, 0, 7], o'⟩, .full 2⟩ := by
  have h := run_well_framed (map .unordered (scalar .char) tree)
  constructor
  · exact h.1 FormatName.canonical.format [('b', .node []), ('a', .node [.node []])] (.full 2)
  · exact h.2.2 FormatName.canonical.format (h.2.1 .canonical) [9, 2, 98, 0, 97, 0, 7] 1 (.full 2)
      (by decide)

end Schema

end WireCodec
