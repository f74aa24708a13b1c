import WireCodec.Proofs.Coupling
import WireCodec.Proofs.Encoding
import WireCodec.Proofs.Settling
import WireCodec.Schema.Drawing

/-!
# How much depth a run needs

A run that is given too little depth is cut short where it would open one container too many;
a run that is given enough never looks at how much it was given. So every run settles, be its
input well-formed or not. What ends it otherwise, the end of the input or a bad tag, ends it with
any budget that reaches so far. A tree settles because each of its levels takes up input.
-/
namespace WireCodec

open HasDepth (setBudget)

namespace Cursor

/-- Compares a run with itself and leaves out every failure but that for want of depth. -/
def shallow : Coupling Cursor where
  states := Eq
  excused x _ := ∀ k, x ≠ .depthExceeded k
  fails _ _ _ := False

theorem onPrimitives_shallow (n : FormatName) : shallow.OnPrimitives n where
  take k c c' h := by
    subst h
    simp only [take]
    split
    · exact .ok rfl
    · exact .excused (by simp [shallow])
  refusal x c c' _ hx := .inl (by cases hx <;> simp [shallow])
  char c c' e _ := .inl (by simp [shallow])
  text c c' e x _ := .inl (by simp [shallow])

/-- Primitives open no container. -/
theorem read_ne_depthExceeded {n : FormatName} {p : Primitive} {c c' : Cursor} {x : Error}
    (h : p.read n.format c = .error x c') (k : Nat) : x ≠ .depthExceeded k := by
  have ha := (onPrimitives_shallow n).read p c c rfl
  rw [h] at ha
  obtain hx | ⟨_, _, _, _, hf⟩ := ha.of_error
  · exact hx k
  · exact hf.elim

end Cursor

namespace Decoder

def frame : Frame Unit Cursor Decoder where
  state _ c b := ⟨c, b⟩
  final x := ∀ k, x ≠ .depthExceeded k
  budget_state _ _ _ := rfl
  setBudget_state _ _ _ _ := rfl

variable {n : FormatName} {α β : Type} {c : Cursor}

theorem settles_read (n : FormatName) (p : Primitive) (c : Cursor) :
    frame.Settles (read n.format p) c := by
  have hrun : ∀ b : DepthBudget, read n.format p ⟨c, b⟩ = reading (p.read n.format) ⟨c, b⟩ :=
    fun _ => rfl
  cases h : p.read n.format c with
  | ok a e =>
    refine .ok 0 a e (Frame.lacks_zero _ c) fun _ b _ => (hrun b).trans ?_
    simp only [reading, h]
    rfl
  | error x e =>
    refine .error 0 x e (Frame.lacks_zero _ c) (Cursor.read_ne_depthExceeded h) fun _ b _ =>
      (hrun b).trans ?_
    simp only [reading, h]
    rfl

theorem container_congr {m m' : Decoding α} {b : DepthBudget}
    (h : ∀ q, b.enter = .ok q → m ⟨c, q⟩ = m' ⟨c, q⟩) :
    HasDepth.container m ⟨c, b⟩ = HasDepth.container m' ⟨c, b⟩ := by
  by_cases hr : b.remaining = 0
  · rw [HasDepth.container_of_exhausted (s := (⟨c, b⟩ : Decoder)) hr,
      HasDepth.container_of_exhausted (s := (⟨c, b⟩ : Decoder)) hr]
  · have hq := DepthBudget.enter_pos hr
    have hbody : m (setBudget ⟨c, b⟩ _) = m' (setBudget ⟨c, b⟩ _) := h _ hq
    rw [HasDepth.container_of_enter (s := (⟨c, b⟩ : Decoder)) hq,
      HasDepth.container_of_enter (s := (⟨c, b⟩ : Decoder)) hq, hbody]

/-- What is done with the place one stands at. -/
theorem settles_get_bind {f : Decoder → Decoding α} (hf : ∀ b, f ⟨c, b⟩ = f ⟨c, .full 0⟩)
    (h : frame.Settles (f ⟨c, .full 0⟩) c) : frame.Settles (do f (← get)) c := by
  refine h.congr fun _ b => ?_
  change f ⟨c, b⟩ ⟨c, b⟩ = _
  rw [hf b]
  rfl

theorem advance_of_run {m : Decoding α} {P : Grammar α} (hr : Reads m P) {a : α} {e : Cursor}
    (h : ∀ i, ∃ b, m (frame.state i c b) = .ok a (frame.state i e b)) :
    ∃ r bs t, c.rest = bs ++ t ∧ P r a bs ∧ e = c.advance bs.length := by
  obtain ⟨b, hb⟩ := h ()
  obtain ⟨bs, t, hrest, hP, he⟩ := (hr _ _ _).1 hb
  exact ⟨_, bs, t, hrest, hP, congrArg Decoder.cursor he⟩

theorem settles_each {f : Decoding α} {P : Grammar α} (hr : Reads f P)
    (h : ∀ e, e.remaining ≤ c.remaining → frame.Settles f e) (k : Nat) :
    frame.Settles (each f k) c := by
  induction k generalizing c with
  | zero => exact .pure [] c
  | succ k ih =>
    refine (h c (Nat.le_refl _)).bind fun a e ha => ?_
    obtain ⟨_, bs, _, -, -, rfl⟩ := advance_of_run hr ha
    refine (ih fun e he => h e ?_).map (a :: ·)
    rw [Cursor.remaining_advance] at he
    omega

/-- The length takes up input, so the elements are read from less. -/
theorem settles_list {f : Decoding α} {P : Grammar α} (hr : Reads f P)
    (h : ∀ e, e.remaining < c.remaining → frame.Settles f e) :
    frame.Settles (list n.format f) c := by
  refine (settles_read n .length c).bind fun k e hk => ?_
  obtain ⟨_, bs, t, hrest, ⟨-, rfl⟩, rfl⟩ := advance_of_run (reads_read n .length) hk
  refine (settles_each hr (fun e he => h e ?_) k).container
  have hl := congrArg List.length hrest
  rw [Cursor.length_rest, List.length_append] at hl
  have hpos := List.length_pos_of_ne_nil (n.lengthBytes_ne_nil k)
  rw [Cursor.remaining_advance] at he
  change c.remaining = (n.lengthBytes k).length + _ at hl
  change e.remaining ≤ c.remaining - (n.lengthBytes k).length at he
  omega

theorem each_congr {f g : Decoding α} {P : Grammar α} (hr : Reads f P) {b : DepthBudget}
    (h : ∀ e, f ⟨e, b⟩ = g ⟨e, b⟩) (k : Nat) (c : Cursor) : each f k ⟨c, b⟩ = each g k ⟨c, b⟩ := by
  induction k generalizing c with
  | zero => rfl
  | succ k ih =>
    refine bind_congr_run (h c) fun a d hd => ?_
    obtain ⟨bs, _, -, -, rfl⟩ := (hr _ _ _).1 hd
    exact bind_congr_run (ih _) fun _ _ _ => rfl

/-- The elements of a list are read with one unit less. -/
theorem list_congr {f g : Decoding α} {P : Grammar α} (hr : Reads f P) {b : DepthBudget}
    (h : ∀ e q, b.enter = .ok q → f ⟨e, q⟩ = g ⟨e, q⟩) (c : Cursor) :
    list n.format f ⟨c, b⟩ = list n.format g ⟨c, b⟩ := by
  refine bind_congr_run rfl fun k d hd => ?_
  obtain ⟨bs, _, -, -, rfl⟩ := (reads_read n .length _ _ _).1 hd
  refine container_congr fun q hq => ?_
  exact each_congr hr (fun e => h e q hq) k _

/-- A tree is read as the list of its children. -/
theorem tree_eq (n : FormatName) (d : Decoder) :
    tree n.format d = (do return Tree.node (← list n.format (tree n.format))) d := by
  obtain ⟨c, b⟩ := d
  refine bind_congr_run (list_congr (reads_treeBelow n _) (fun e q hq => ?_) c) fun _ _ _ => rfl
  obtain ⟨-, hrem⟩ := DepthBudget.enter_eq_ok.1 hq
  exact congrArg (fun k => treeBelow n.format k ⟨e, q⟩) hrem

theorem settles_tree (n : FormatName) (c : Cursor) : frame.Settles (tree n.format) c := by
  -- the levels of a tree are not bounded by the budget here but by the input that is left
  induction hr : c.remaining using Nat.strong_induction_on generalizing c with
  | _ r ih =>
    have hlist : frame.Settles (list n.format (tree n.format)) c :=
      settles_list (reads_tree n) fun e he => ih _ (hr ▸ he) e rfl
    exact (hlist.map Tree.node).congr fun _ b => tree_eq n ⟨c, b⟩

theorem settles_consumed (a b : Nat) (c : Cursor) : frame.Settles (consumed a b) c := by
  by_cases h : a ≤ b ∧ b ≤ c.offset
  · exact .ok 0 (c.input.extract a b) c (Frame.lacks_zero _ c) fun _ _ _ => if_pos h
  · exact .error 0 (.invalidRange "map key" a b c.offset) c (Frame.lacks_zero _ c) (by simp [frame])
      fun _ _ _ => if_neg h

theorem settles_checkAfter (n : FormatName) (before : Option (Nat × Nat)) (start stop : Nat)
    (c : Cursor) : frame.Settles (checkAfter n.format before start stop) c := by
  cases before with
  | none => exact .pure () c
  | some p =>
    refine (settles_consumed p.1 p.2 c).bind fun k₁ e₁ _ => ?_
    refine (settles_consumed start stop e₁).bind fun k₂ e₂ _ => ?_
    obtain hk | ⟨-, hk⟩ := checkKeyOrder_cases n k₁ k₂
    · rw [hk]
      exact .pure () e₂
    · rw [hk]
      exact .throw (by simp [frame]) e₂

variable {key : Decoding α} {value : Decoding β}

theorem settles_eachEntry (hk : ∀ c, frame.Settles key c) (hv : ∀ c, frame.Settles value c)
    (before : Option (Nat × Nat)) (m : Nat) (c : Cursor) :
    frame.Settles (eachEntry n.format key value before m) c := by
  induction m generalizing before c with
  | zero => exact .pure [] c
  | succ m ih =>
    refine settles_get_bind (fun _ => rfl) ((hk c).bind fun k e _ => ?_)
    refine settles_get_bind (fun _ => rfl) ((settles_checkAfter n ..).bind fun _ e' _ => ?_)
    exact (hv e').bind fun v e'' _ => (ih _ e'').map _

theorem settles_entries (hk : ∀ c, frame.Settles key c) (hv : ∀ c, frame.Settles value c)
    (c : Cursor) : frame.Settles (entries n.format key value) c :=
  (settles_read n .length c).bind fun m e _ => (settles_eachEntry hk hv none m e).container

theorem settles_readVariant (n : FormatName) (count : Nat) (c : Cursor) :
    frame.Settles (readVariant n.format count) c := by
  refine (settles_read n .variantIndex c).bind fun i e _ => ?_
  split
  · exact .pure _ e
  · exact .throw (by simp [frame]) e

end Decoder

open Decoder in
/-- There is one depth from which on decoding at a place does not depend on the depth any more. -/
theorem Schema.settles_decode (n : FormatName) (s : Schema) (c : Cursor) :
    frame.Settles (s.decode n.format) c := by
  induction s generalizing c with
  | scalar s => exact settles_read n (.scalar s) c
  | option s ih =>
    refine (settles_read n .presence c).bind fun (present : Bool) e _ => ?_
    cases present with
    | false => exact .pure none e
    | true => exact (ih e).map some
  | boxed s ih => exact ih c
  | pair a b iha ihb => exact (iha c).bind fun x e _ => (ihb e).map (x, ·)
  | seq s ih => exact settles_list (s.reads_decode n) fun e _ => ih e
  | map it k v ihk ihv => exact (settles_entries ihk ihv c).map _
  | set it k ih =>
    exact (settles_entries ih (fun e => .pure () e) c).map
      fun es => Entries.keysOfList k.compare (es.map (·.1))
  | framed s ih => exact (ih c).container
  | choice count alt ih =>
    exact (settles_readVariant n count c).bind fun i e _ =>
      (ih i e).map fun x => (⟨i, x⟩ : (Schema.choice count alt).Val)
  | tree => exact settles_tree n c

namespace Encoder

/-- What a run appends does not depend on what the buffer held before. -/
def frame : Frame Bytes Bytes Encoder where
  state w x b := ⟨w ++ x, b⟩
  final x := ∃ k, x = .lengthOutOfRange k
  budget_state _ _ _ := rfl
  setBudget_state _ _ _ _ := rfl

theorem settles_append (bs x : Bytes) : frame.Settles (append bs) x := by
  refine .ok 0 () (x ++ bs) (Frame.lacks_zero _ x) fun w b _ => ?_
  change EStateM.Result.ok () (⟨w ++ x ++ bs, b⟩ : Encoder) = _
  rw [List.append_assoc]
  rfl

theorem settles_write (n : FormatName) (p : Primitive) (v : p.Val) (x : Bytes) :
    frame.Settles (write n.format p v) x := by
  rw [write]
  cases h : p.write n.format v with
  | ok bs => exact settles_append bs x
  | error err => exact .throw (Primitive.write_eq_error n h) x

theorem state_nil (w : Bytes) (b : DepthBudget) : frame.state w [] b = ⟨w, b⟩ :=
  congrArg (Encoder.mk · b) (List.append_nil w)

variable {n : FormatName} {α : Type} {f : α → Encoding Unit} {as : List α}

theorem settles_each (h : ∀ a ∈ as, ∀ x, frame.Settles (f a) x) (x : Bytes) :
    frame.Settles (each f as) x := by
  induction as generalizing x with
  | nil => exact .pure () x
  | cons a as ih =>
    rw [List.forall_mem_cons] at h
    exact (h.1 x).bind fun _ y _ => ih h.2 y

theorem settles_list (h : ∀ a ∈ as, ∀ x, frame.Settles (f a) x) (x : Bytes) :
    frame.Settles (list n.format f as) x :=
  (settles_write n .length as.length x).bind fun _ y _ => (settles_each h y).container

theorem settles_tree (n : FormatName) (t : Tree) (x : Bytes) :
    frame.Settles (tree n.format t) x := by
  induction t using Tree.induct generalizing x with
  | h ts ih =>
    rw [tree_node]
    exact settles_list ih x

theorem eachAt_eq_error {e e' : Encoder} {x : Error} (h : each f as e = .error x e') :
    eachAt f as e = .error x e' := by
  induction as generalizing e with
  | nil => cases h
  | cons a as ih =>
    change (f a >>= fun _ => each f as) e = .error x e' at h
    change (f a >>= fun _ => do return e.offset :: (← eachAt f as)) e = _
    cases hr : f a e with
    | ok u e₁ =>
      rw [bind_of_ok hr] at h ⊢
      exact bind_of_error (ih h)
    | error y e₁ =>
      rw [bind_of_error hr] at h ⊢
      cases h
      rfl

/-- Entries are written as the elements of a list are, and then only put in another order. -/
theorem settles_entries {P : α → Prop} {r : α → Nat} {g : α → Bytes}
    (ha : ∀ a ∈ as, Appends (f a) (P a) (r a) (g a)) (h : ∀ a ∈ as, ∀ x, frame.Settles (f a) x)
    (x : Bytes) : frame.Settles (entries n.format f as) x := by
  -- where entries start depends on the buffer, so the loop that notes it does not settle;
  -- it fails as the loop that does not note it, and what it noted is used up by the sorting
  have hlack : ∀ y need, frame.Lacks (each f as) y need →
      frame.Lacks (do sortEntries n.format (← eachAt f as)) y need := by
    intro y need hl b hb
    obtain ⟨z, hz⟩ := hl b hb
    exact ⟨z, fun w => bind_of_error (eachAt_eq_error (hz w))⟩
  have hbody : ∀ y, frame.Settles (do sortEntries n.format (← eachAt f as)) y := by
    intro y
    cases settles_each h y with
    | error need err z hl hx hrun =>
      exact .error need err z (hlack y need hl) hx fun w b hb =>
        bind_of_error (eachAt_eq_error (hrun w b hb))
    | ok need u z hl hrun =>
      refine .ok need () (y ++ (n.arrange (as.map g)).flatten) (hlack y need hl) fun w b hb => ?_
      obtain ⟨os, hos⟩ := each_eq_ok.1 (hrun w b hb)
      obtain ⟨-, rfl, he⟩ := (eachAt_eq_ok ha).1 hos
      rw [bind_of_ok hos, he]
      refine (sortEntries_starts n (w ++ y) (as.map g) b).trans ?_
      rw [List.append_assoc]
      rfl
  exact (settles_write n .length as.length x).bind fun _ y _ => (hbody y).container

end Encoder

open Encoder in
/-- There is one depth from which on encoding a value does not depend on the depth any more. -/
theorem Schema.settles_encode (n : FormatName) (s : Schema) (v : s.Val) (x : Bytes) :
    frame.Settles (s.encode n.format v) x := by
  induction s generalizing x with
  | scalar s => exact settles_write n (.scalar s) v x
  | option s ih =>
    cases v with
    | none => exact settles_write n .presence false x
    | some v => exact (settles_write n .presence true x).bind fun _ y _ => ih v y
  | boxed s ih => exact ih v x
  | pair a b iha ihb => exact (iha v.1 x).bind fun _ y _ => ihb v.2 y
  | seq s ih => exact settles_list (fun u _ => ih u) x
  | map it k t ihk iht =>
    exact settles_entries (fun e _ => (k.appends_encode n e.1).bind (t.appends_encode n e.2))
      (fun e _ y => (ihk e.1 y).bind fun _ z _ => iht e.2 z) x
  | set it k ih => exact settles_entries (fun u _ => k.appends_encode n u) (fun u _ => ih u) x
  | framed s ih => exact (ih v x).container
  | choice count alt ih =>
    exact (settles_write n .variantIndex (.ofNat v.1) x).bind fun _ y _ => ih v.1 v.2 y
  | tree => exact settles_tree n v x

namespace Schema

/-- The depth budget cuts a run short or leaves it as it is. For every input and every value
there is a threshold: with less depth the run fails for want of it, with as much or more it ends
in one and the same way, in the same place or with the same bytes appended. -/
theorem depth_cuts_short (n : FormatName) (s : Schema) :
    (∀ c : Cursor, ∃ need,
      (∀ b, b.remaining < need →
        ∃ e, s.decode n.format ⟨c, b⟩ = .error (.depthExceeded b.max) ⟨e, b⟩) ∧
      ((∃ v e, ∀ b, need ≤ b.remaining → s.decode n.format ⟨c, b⟩ = .ok v ⟨e, b⟩) ∨
        ∃ x e, (∀ m, x ≠ .depthExceeded m) ∧
          ∀ b, need ≤ b.remaining → s.decode n.format ⟨c, b⟩ = .error x ⟨e, b⟩)) ∧
    ∀ v : s.Val, ∃ need,
      (∀ b, b.remaining < need → ∃ bs, ∀ w,
        s.encode n.format v ⟨w, b⟩ = .error (.depthExceeded b.max) ⟨w ++ bs, b⟩) ∧
      ∃ bs,
        (∀ w b, need ≤ b.remaining → s.encode n.format v ⟨w, b⟩ = .ok () ⟨w ++ bs, b⟩) ∨
        ∃ k, ∀ w b, need ≤ b.remaining →
          s.encode n.format v ⟨w, b⟩ = .error (.lengthOutOfRange k) ⟨w ++ bs, b⟩ := by
  constructor
  · intro c
    have hlack : ∀ need, Decoder.frame.Lacks (s.decode n.format) c need → ∀ b : DepthBudget,
        b.remaining < need →
          ∃ e, s.decode n.format ⟨c, b⟩ = .error (.depthExceeded b.max) ⟨e, b⟩ := by
      intro need hl b hb
      obtain ⟨e, he⟩ := hl b hb
      exact ⟨e, he ()⟩
    cases settles_decode n s c with
    | ok need v e hl h => exact ⟨need, hlack need hl, .inl ⟨v, e, h ()⟩⟩
    | error need x e hl hx h => exact ⟨need, hlack need hl, .inr ⟨x, e, hx, h ()⟩⟩
  · intro v
    have hnil : ∀ w b, s.encode n.format v ⟨w, b⟩ = s.encode n.format v (Encoder.frame.state w [] b) :=
      fun w b => congrArg (s.encode n.format v) (Encoder.state_nil w b).symm
    have hlack : ∀ need, Encoder.frame.Lacks (s.encode n.format v) [] need → ∀ b : DepthBudget,
        b.remaining < need → ∃ bs, ∀ w,
          s.encode n.format v ⟨w, b⟩ = .error (.depthExceeded b.max) ⟨w ++ bs, b⟩ := by
      intro need hl b hb
      obtain ⟨bs, hbs⟩ := hl b hb
      exact ⟨bs, fun w => (hnil w b).trans (hbs w)⟩
    cases settles_encode n s v [] with
    | ok need u bs hl h =>
      exact ⟨need, hlack need hl, bs, .inl fun w b hb => (hnil w b).trans (h w b hb)⟩
    | error need x bs hl hx h =>
      obtain ⟨k, rfl⟩ := hx
      exact ⟨need, hlack need hl, bs, .inr ⟨k, fun w b hb => (hnil w b).trans (h w b hb)⟩⟩

/-- A run with little depth tells how the run with a lot of it ends. -/
theorem depth_cuts_short_tree :
    (∃ e, tree.decode FormatName.canonical.format ⟨⟨[9, 2, 0, 1, 0, 7], 1⟩, .full 500⟩ =
      .ok (.node [.node [], .node [.node []]]) ⟨e, .full 500⟩) ∧
    ∃ bs, (seq (seq bool)).encode FormatName.fast.format [[true], []] ⟨[9], .full 500⟩ =
      .ok () ⟨[9] ++ bs, .full 500⟩ := by
  constructor
  · have hsmall : tree.decode FormatName.canonical.format ⟨⟨[9, 2, 0, 1, 0, 7], 1⟩, .full 3⟩ =
        .ok (.node [.node [], .node [.node []]]) ⟨⟨[9, 2, 0, 1, 0, 7], 5⟩, .full 3⟩ := by cbv
    obtain ⟨need, hlt, hge⟩ := (depth_cuts_short .canonical tree).1 ⟨[9, 2, 0, 1, 0, 7], 1⟩
    have hneed : need ≤ 3 := by
      by_contra hn
      obtain ⟨e, he⟩ := hlt (.full 3) (Nat.lt_of_not_le hn)
      rw [hsmall] at he
      cases he
    obtain ⟨v, e, h⟩ | ⟨x, e, -, h⟩ := hge
    · have hv := h (.full 3) hneed
      rw [hsmall] at hv
      cases hv
      exact ⟨_, h (.full 500) (Nat.le_trans hneed (by decide))⟩
    · have hx := h (.full 3) hneed
      rw [hsmall] at hx
      cases hx
  · have hsmall : (seq (seq bool)).encode FormatName.fast.format [[true], []] ⟨[], .full 2⟩ =
        .ok () ⟨[2, 0, 0, 0, 0, 0, 0, 0, 1, 0, 0, 0, 0, 0, 0, 0, 1, 0, 0, 0, 0, 0, 0, 0, 0], .full 2⟩ := by
      cbv
    obtain ⟨need, hlt, bs, hge⟩ := (depth_cuts_short .fast (seq (seq bool))).2 [[true], []]
    have hneed : need ≤ 2 := by
      by_contra hn
      obtain ⟨cs, hcs⟩ := hlt (.full 2) (Nat.lt_of_not_le hn)
      have h := hcs []
      rw [hsmall] at h
      cases h
    obtain h | ⟨k, h⟩ := hge
    · exact ⟨bs, h [9] (.full 500) (Nat.le_trans hneed (by decide))⟩
    · have hk := h [] (.full 2) hneed
      rw [hsmall] at hk
      cases hk

end Schema

end WireCodec
