import WireCodec.Proofs.Decoding

/-!
# Two runs side by side

What becomes of a decoder on another input, behind another prefix or with more to read is a
question about two of its runs. A `Coupling` says in which states the two may stand at the
same time, after which failures of the first run nothing is asked of the second, and how
the second fails where the first one does. Every decoder is coupled with itself as soon as
taking a slice of input is, the failures that say where they arose keep up with the states,
and the bytes of a key are the same for both runs.
-/
namespace WireCodec

open HasDepth (container)

structure Coupling (σ : Type) where
  states : σ → σ → Prop
  /-- A failure of the first run, and where it left off, after which the second run is free. -/
  excused : Error → σ → Prop
  /-- How the second run fails when the first fails so and leaves off there. -/
  fails : Error → σ → Error → Prop

namespace Coupling

variable {σ α β : Type} (C : Coupling σ)

/-- The second failure answers the first. -/
def Stops (x : Error) (s : σ) (y : Error) : Prop := C.excused x s ∨ C.fails x s y

/-- How the second run ends, given how the first one does. -/
inductive Answers : EStateM.Result Error σ α → EStateM.Result Error σ α → Prop
  | ok {a : α} {s s' : σ} (h : C.states s s') : Answers (.ok a s) (.ok a s')
  | excused {x : Error} {s : σ} {r : EStateM.Result Error σ α} (h : C.excused x s) :
      Answers (.error x s) r
  | error {x y : Error} {s s' : σ} (h : C.states s s') (hf : C.fails x s y) :
      Answers (.error x s) (.error y s')

def Coupled (m m' : EStateM Error σ α) : Prop := ∀ s s', C.states s s' → C.Answers (m s) (m' s')

variable {C} {m m' : EStateM Error σ α} {f f' : α → EStateM Error σ β} {s s' : σ}

theorem Answers.stops {x y : Error} (h : C.states s s') (hx : C.Stops x s y) :
    C.Answers (.error x s : EStateM.Result Error σ α) (.error y s') := by
  rcases hx with hx | hx
  · exact .excused hx
  · exact .error h hx

theorem Answers.of_ok {a : α} {r : EStateM.Result Error σ α} (h : C.Answers (.ok a s) r) :
    ∃ s', r = .ok a s' ∧ C.states s s' := by
  cases h with
  | ok hs => exact ⟨_, rfl, hs⟩

theorem Answers.of_error {x : Error} {r : EStateM.Result Error σ α} (h : C.Answers (.error x s) r) :
    C.excused x s ∨ ∃ y s', r = .error y s' ∧ C.states s s' ∧ C.fails x s y := by
  cases h with
  | excused hx => exact .inl hx
  | error hs hx => exact .inr ⟨_, _, rfl, hs, hx⟩

/-- The second steps need to be coupled only where the first steps lead. -/
theorem Answers.bind (h : C.Answers (m s) (m' s'))
    (hf : ∀ a t t', m s = .ok a t → m' s' = .ok a t' → C.states t t' → C.Answers (f a t) (f' a t')) :
    C.Answers ((m >>= f) s) ((m' >>= f') s') := by
  change C.Answers (EStateM.bind m f s) (EStateM.bind m' f' s')
  simp only [EStateM.bind]
  generalize hr : m s = r at h
  generalize hr' : m' s' = r' at h
  cases h with
  | ok ht => exact hf _ _ _ hr hr' ht
  | excused hx => exact .excused hx
  | error ht hx => exact .error ht hx

theorem Coupled.pure (a : α) : C.Coupled (pure a) (pure a) := fun _ _ h => .ok h

theorem Coupled.throw {x y : Error} (h : ∀ s s', C.states s s' → C.Stops x s y) :
    C.Coupled (throw x : EStateM Error σ α) (throw y) := fun s s' hs => .stops hs (h s s' hs)

theorem Coupled.bind (h : C.Coupled m m') (hf : ∀ a, C.Coupled (f a) (f' a)) :
    C.Coupled (m >>= f) (m' >>= f') :=
  fun s s' hs => (h s s' hs).bind fun a t t' _ _ ht => hf a t t' ht

theorem Coupled.map (h : C.Coupled m m') (g : α → β) :
    C.Coupled (do return g (← m)) (do return g (← m')) := h.bind fun a => .pure (g a)

/-- What is done with the state one stands in, in each run. -/
theorem Coupled.get_bind {f f' : σ → EStateM Error σ α}
    (h : ∀ s s', C.states s s' → C.Answers (f s s) (f' s' s')) :
    C.Coupled (do f (← get)) (do f' (← get)) := h

end Coupling

/-- The failures of a primitive that do not say where in the input they arose. -/
inductive Primitive.Refusal (n : FormatName) : Error → Prop
  | value (what : String) (k : Nat) : Refusal n (.invalidValue what k)
  | length (k : Nat) : Refusal n (.lengthOutOfRange k)
  | malformed (h : n = .canonical) (what reason : String) : Refusal n (.malformed what reason)

namespace Coupling

/-- A byte is taken as a slice of length one is. -/
theorem Coupled.byte {C : Coupling Cursor} (h : C.Coupled (Cursor.take 1) (Cursor.take 1)) :
    C.Coupled Cursor.byte Cursor.byte := by
  intro c c' hc
  have ht := h c c' hc
  rw [Cursor.take_one, Cursor.take_one] at ht
  simp only [Bind.bind, EStateM.bind, Pure.pure, EStateM.pure] at ht
  cases hb : Cursor.byte c with
  | ok b e =>
    cases hb' : Cursor.byte c' with
    | ok b' e' =>
      rw [hb, hb'] at ht
      cases ht with
      | ok he => exact .ok he
    | error y e' =>
      rw [hb, hb'] at ht
      cases ht
  | error x e =>
    cases hb' : Cursor.byte c' with
    | ok b' e' =>
      rw [hb, hb'] at ht
      cases ht with
      | excused hx => exact .excused hx
    | error y e' =>
      rw [hb, hb'] at ht
      cases ht with
      | excused hx => exact .excused hx
      | error he hx => exact .error he hx

/-- Two runs over cursors that can be followed through what a format reads by itself and through
the steps that are the same for all formats. -/
structure OnHooks (C : Coupling Cursor) (F : Format) : Prop where
  take : ∀ k, C.Coupled (Cursor.take k) (Cursor.take k)
  length : C.Coupled F.decodeLength F.decodeLength
  variantIndex : C.Coupled F.decodeVariantIndex F.decodeVariantIndex
  value : ∀ what k c c', C.states c c' → C.Stops (.invalidValue what k) c (.invalidValue what k)
  range : ∀ k c c', C.states c c' → C.Stops (.lengthOutOfRange k) c (.lengthOutOfRange k)
  char : ∀ c c' e, C.states c c' → C.Stops (.invalidChar c.offset) e (.invalidChar c'.offset)
  text : ∀ c c' e x, C.states c c' → C.Stops (.invalidUtf8 c.offset x) e (.invalidUtf8 c'.offset x)

namespace OnHooks

variable {C : Coupling Cursor} {F : Format}

theorem readLength (h : C.OnHooks F) : C.Coupled F.readLength F.readLength := by
  refine h.length.bind fun k => ?_
  split
  · exact .pure _
  · exact .throw (h.range _)

theorem readBool (h : C.OnHooks F) : C.Coupled Scalar.readBool Scalar.readBool := by
  refine (Coupled.byte (h.take 1)).bind fun b => ?_
  split
  · exact .pure _
  · split
    · exact .pure _
    · exact .throw (h.value _ _)

theorem readCharFrom (h : C.OnHooks F) {start start' : Nat}
    (hstart : ∀ e, C.Stops (.invalidChar start) e (.invalidChar start')) (k : Nat) (seen : Bytes) :
    C.Coupled (Scalar.readCharFrom start k seen) (Scalar.readCharFrom start' k seen) := by
  have hthrow : C.Coupled (α := Char) (throw (.invalidChar start))
      (throw (.invalidChar start')) := .throw fun e _ _ => hstart e
  induction k generalizing seen with
  | zero => exact hthrow
  | succ k ih =>
    rw [Scalar.readCharFrom, Scalar.readCharFrom]
    refine (Coupled.byte (h.take 1)).bind fun b => ?_
    dsimp only
    split
    · exact .pure _
    · exact hthrow
    · split
      · exact hthrow
      · exact ih _

theorem readText (h : C.OnHooks F) : C.Coupled (Scalar.readText F) (Scalar.readText F) := by
  refine h.readLength.bind fun k => .get_bind fun c c' hc => ?_
  refine (h.take k).bind (fun bs => ?_) c c' hc
  split
  · exact .pure _
  · exact .throw fun e _ _ => h.text c c' e _ hc

theorem readScalar (h : C.OnHooks F) (s : Scalar) : C.Coupled (s.read F) (s.read F) := by
  cases s with
  | unit => exact .pure _
  | bool => exact h.readBool
  | uint w => exact (h.take w.bytes).map _
  | int w => exact (h.take w.bytes).map _
  | float p => exact (h.take p.width.bytes).map _
  | char =>
    exact .get_bind fun c c' hc => h.readCharFrom (fun e => h.char c c' e hc) 4 [] c c' hc
  | text => exact h.readText
  | blob => exact h.readLength.bind h.take

theorem readPresence (h : C.OnHooks F) :
    C.Coupled Primitive.readPresence Primitive.readPresence := by
  refine (Coupled.byte (h.take 1)).bind fun b => ?_
  simp only [Presence.ofByte]
  by_cases h₀ : b = 0
  · rw [if_pos h₀]
    exact .pure _
  by_cases h₁ : b = 1
  · rw [if_neg h₀, if_pos h₁]
    exact .pure _
  rw [if_neg h₀, if_neg h₁]
  exact .throw (h.value _ _)

/-- Every primitive is coupled with itself. -/
theorem read (h : C.OnHooks F) (p : Primitive) : C.Coupled (p.read F) (p.read F) := by
  cases p with
  | scalar s => exact h.readScalar s
  | presence => exact h.readPresence
  | length => exact h.readLength
  | variantIndex => exact h.variantIndex

end OnHooks

/-- Two runs over cursors that can be followed through the primitives of a format. -/
structure OnPrimitives (C : Coupling Cursor) (n : FormatName) : Prop where
  take : ∀ k, C.Coupled (Cursor.take k) (Cursor.take k)
  refusal : ∀ x c c', C.states c c' → Primitive.Refusal n x → C.Stops x c x
  char : ∀ c c' e, C.states c c' → C.Stops (.invalidChar c.offset) e (.invalidChar c'.offset)
  text : ∀ c c' e x, C.states c c' → C.Stops (.invalidUtf8 c.offset x) e (.invalidUtf8 c'.offset x)

namespace OnPrimitives

variable {C : Coupling Cursor} {n : FormatName} {α : Type}

theorem refuses (h : C.OnPrimitives n) {x : Error} (hx : Primitive.Refusal n x) :
    C.Coupled (throw x : Reading α) (throw x) := .throw fun s s' hs => h.refusal x s s' hs hx

theorem decodeFrom (h : C.OnPrimitives .canonical) (weight value k : Nat) :
    C.Coupled (Uleb128.decodeFrom weight value k) (Uleb128.decodeFrom weight value k) := by
  have hoverflow : C.Coupled (α := UInt32) (throw Uleb128.overflow) (throw Uleb128.overflow) :=
    h.refuses (.malformed rfl ..)
  induction k generalizing weight value with
  | zero => exact hoverflow
  | succ k ih =>
    rw [Uleb128.decodeFrom]
    refine (Coupled.byte (h.take 1)).bind fun b => ?_
    dsimp only
    split
    · split
      · exact h.refuses (.malformed rfl ..)
      · split
        · exact .pure _
        · exact hoverflow
    · exact ih _ _

theorem decodeLength (h : C.OnPrimitives n) :
    C.Coupled n.format.decodeLength n.format.decodeLength := by
  cases n with
  | canonical =>
    refine (h.decodeFrom 1 0 5).bind fun k => ?_
    split
    · exact .pure _
    · exact h.refuses (.length _)
  | fast =>
    refine (h.take 8).bind fun bs => ?_
    dsimp only
    split
    · exact .pure _
    · exact h.refuses (.length _)

theorem decodeVariantIndex (h : C.OnPrimitives n) :
    C.Coupled n.format.decodeVariantIndex n.format.decodeVariantIndex := by
  cases n with
  | canonical => exact h.decodeFrom 1 0 5
  | fast => exact (h.take 4).map _

theorem onHooks (h : C.OnPrimitives n) : C.OnHooks n.format where
  take := h.take
  length := h.decodeLength
  variantIndex := h.decodeVariantIndex
  value what k c c' hc := h.refusal _ c c' hc (.value what k)
  range k c c' hc := h.refusal _ c c' hc (.length k)
  char := h.char
  text := h.text

theorem read (h : C.OnPrimitives n) (p : Primitive) :
    C.Coupled (p.read n.format) (p.read n.format) := h.onHooks.read p

end OnPrimitives

/-- Two runs over cursors that can be followed through the decoders of a format. -/
structure OnDecoders (C : Coupling Cursor) (n : FormatName) : Prop extends C.OnPrimitives n where
  order : n = .canonical → ∀ c c', C.states c c' → C.Stops .nonCanonicalOrder c .nonCanonicalOrder
  depth : ∀ k c c', C.states c c' → C.Stops (.depthExceeded k) c (.depthExceeded k)
  /-- What is read between two pairs of states is the same in both runs. -/
  bytes : ∀ (c c' : Cursor) (bs bs' t t' : Bytes), C.states c c' → c.rest = bs ++ t →
    c'.rest = bs' ++ t' → C.states (c.advance bs.length) (c'.advance bs'.length) → bs = bs'

/-- Two runs with the same depth. -/
def onDecoder (C : Coupling Cursor) : Coupling Decoder where
  states d e := C.states d.cursor e.cursor ∧ d.depth = e.depth
  excused x d := C.excused x d.cursor
  fails x d y := C.fails x d.cursor y

namespace OnDecoders

open Decoder

variable {C : Coupling Cursor} {n : FormatName} {α β : Type}

theorem reading {m m' : Reading α} (hm : C.Coupled m m') :
    C.onDecoder.Coupled (Decoder.reading m) (Decoder.reading m') := by
  intro d e hd
  have h := hm d.cursor e.cursor hd.1
  simp only [Decoder.reading]
  generalize m d.cursor = r at h
  generalize m' e.cursor = r' at h
  cases h with
  | ok hc => exact .ok ⟨hc, hd.2⟩
  | excused hx => exact .excused hx
  | error hc hx => exact .error ⟨hc, hd.2⟩ hx

theorem read (h : C.OnDecoders n) (p : Primitive) :
    C.onDecoder.Coupled (read n.format p) (read n.format p) := reading (h.toOnPrimitives.read p)

/-- Both runs enter the container or neither does. -/
theorem container (h : C.OnDecoders n) {m m' : Decoding α} (hm : C.onDecoder.Coupled m m') :
    C.onDecoder.Coupled (container m) (container m') := by
  rintro ⟨c, b⟩ ⟨c', b'⟩ ⟨hc, hb⟩
  obtain rfl : b = b' := hb
  by_cases hr : b.remaining = 0
  · rw [HasDepth.container_of_exhausted (s := (⟨c, b⟩ : Decoder)) hr,
      HasDepth.container_of_exhausted (s := (⟨c', b⟩ : Decoder)) hr]
    exact .stops ⟨hc, rfl⟩ (h.depth b.max c c' hc)
  · obtain ⟨q, hq⟩ : ∃ q, b.enter = .ok q := ⟨_, DepthBudget.enter_pos hr⟩
    rw [HasDepth.container_of_enter (s := (⟨c, b⟩ : Decoder)) hq,
      HasDepth.container_of_enter (s := (⟨c', b⟩ : Decoder)) hq]
    have hbody := hm (HasDepth.setBudget ⟨c, b⟩ q) (HasDepth.setBudget ⟨c', b⟩ q) ⟨hc, rfl⟩
    generalize m (HasDepth.setBudget ⟨c, b⟩ q) = r at hbody ⊢
    generalize m' (HasDepth.setBudget ⟨c', b⟩ q) = r' at hbody ⊢
    cases hbody with
    | ok hs => exact .ok ⟨hs.1, congrArg DepthBudget.exit hs.2⟩
    | excused hx => exact .excused hx
    | error hs hx => exact .error ⟨hs.1, congrArg DepthBudget.exit hs.2⟩ hx

theorem each {f : Decoding α} (hf : C.onDecoder.Coupled f f) (k : Nat) :
    C.onDecoder.Coupled (each f k) (each f k) := by
  induction k with
  | zero => exact .pure []
  | succ k ih => exact hf.bind fun a => ih.map (a :: ·)

theorem list (h : C.OnDecoders n) {f : Decoding α} (hf : C.onDecoder.Coupled f f) :
    C.onDecoder.Coupled (list n.format f) (list n.format f) :=
  (h.read .length).bind fun k => h.container (each hf k)

theorem readVariant (h : C.OnDecoders n) (count : Nat) :
    C.onDecoder.Coupled (readVariant n.format count) (readVariant n.format count) := by
  refine (reading h.decodeVariantIndex).bind fun i => ?_
  split
  · exact .pure _
  · exact .throw fun d d' hd => h.refusal _ _ _ hd.1 (.value ..)

theorem treeBelow (h : C.OnDecoders n) (k : Nat) :
    C.onDecoder.Coupled (treeBelow n.format k) (treeBelow n.format k) := by
  induction k with
  | zero =>
    rintro ⟨c, b⟩ ⟨c', b'⟩ ⟨hc, hb⟩
    obtain rfl : b = b' := hb
    exact .stops ⟨hc, rfl⟩ (h.depth b.max c c' hc)
  | succ k ih => exact (h.list ih).map Tree.node

theorem tree (h : C.OnDecoders n) : C.onDecoder.Coupled (tree n.format) (tree n.format) := by
  intro d e hd
  simp only [Decoder.tree, hd.2]
  exact h.treeBelow _ d e hd

variable {key : Decoding α} {value : Decoding β} {K : Grammar α} {V : Grammar β}

/-- The last key so far, in each run a stretch of what has been read, has the same bytes in
both. -/
structure SameKey (d e : Decoder) (before before' : Option (Nat × Nat)) : Prop where
  left : ∀ p ∈ before, p.1 ≤ p.2 ∧ p.2 ≤ d.offset
  right : ∀ p ∈ before', p.1 ≤ p.2 ∧ p.2 ≤ e.offset
  bytes : keyBefore d before = keyBefore e before'

theorem SameKey.advance {d e : Decoder} {before before' : Option (Nat × Nat)}
    (h : SameKey d e before before') (k k' : Nat) :
    SameKey ⟨d.cursor.advance k, d.depth⟩ ⟨e.cursor.advance k', e.depth⟩ before before' where
  left p hp := ⟨(h.left p hp).1, Nat.le_trans (h.left p hp).2 (Nat.le_add_right ..)⟩
  right p hp := ⟨(h.right p hp).1, Nat.le_trans (h.right p hp).2 (Nat.le_add_right ..)⟩
  bytes := h.bytes

theorem SameKey.of_read {d e : Decoder} {bs t t' : Bytes} (h : d.cursor.rest = bs ++ t)
    (h' : e.cursor.rest = bs ++ t') :
    SameKey ⟨d.cursor.advance bs.length, d.depth⟩ ⟨e.cursor.advance bs.length, e.depth⟩
      (some (d.offset, d.offset + bs.length)) (some (e.offset, e.offset + bs.length)) where
  left p hp := by
    cases hp
    exact ⟨Nat.le_add_right .., Nat.le_refl _⟩
  right p hp := by
    cases hp
    exact ⟨Nat.le_add_right .., Nat.le_refl _⟩
  bytes := (keyBefore_key h _ rfl).trans (keyBefore_key h' _ rfl).symm

theorem checkAfter (h : C.OnDecoders n) {d e : Decoder} {before before' : Option (Nat × Nat)}
    {start start' stop stop' : Nat} (hs : C.onDecoder.states d e) (hk : SameKey d e before before')
    (hl : start ≤ stop ∧ stop ≤ d.offset) (hr : start' ≤ stop' ∧ stop' ≤ e.offset)
    (hbs : d.cursor.input.extract start stop = e.cursor.input.extract start' stop') :
    C.onDecoder.Answers (Decoder.checkAfter n.format before start stop d)
      (Decoder.checkAfter n.format before' start' stop' e) := by
  have hleft := checkAfter_cases n hk.left hl.1 hl.2
  have hright := checkAfter_cases n hk.right hr.1 hr.2
  rw [← hk.bytes, ← hbs] at hright
  obtain ⟨hd, ho⟩ | ⟨hd, ho, hn⟩ := hleft
  · obtain ⟨he, -⟩ | ⟨-, ho', -⟩ := hright
    · rw [hd, he]
      exact .ok hs
    · exact absurd ho ho'
  · obtain ⟨-, ho'⟩ | ⟨he, -⟩ := hright
    · exact absurd ho' ho
    · rw [hd, he]
      exact .stops hs (h.order hn _ _ hs.1)

variable {key : Decoding α} {value : Decoding β} {K : Grammar α} {V : Grammar β}

theorem eachEntry (h : C.OnDecoders n) (hkr : Reads key K) (hvr : Reads value V)
    (hk : C.onDecoder.Coupled key key) (hv : C.onDecoder.Coupled value value) (m : Nat)
    {d e : Decoder} {before before' : Option (Nat × Nat)} (hs : C.onDecoder.states d e)
    (hb : SameKey d e before before') :
    C.onDecoder.Answers (Decoder.eachEntry n.format key value before m d)
      (Decoder.eachEntry n.format key value before' m e) := by
  induction m generalizing d e before before' with
  | zero => exact .ok hs
  | succ m ih =>
    simp only [Decoder.eachEntry, get_bind_run]
    refine (hk d e hs).bind fun k d₁ e₁ hd he hs₁ => ?_
    obtain ⟨bs, t, hr, -, rfl⟩ := (hkr _ _ _).1 hd
    obtain ⟨bs', t', hr', -, rfl⟩ := (hkr _ _ _).1 he
    obtain rfl := h.bytes _ _ _ _ _ _ hs.1 hr hr' hs₁.1
    have hl : d.offset ≤ d.offset + bs.length := Nat.le_add_right ..
    have hl' : e.offset ≤ e.offset + bs.length := Nat.le_add_right ..
    have hbs := (Cursor.extract_offset hr).trans (Cursor.extract_offset hr').symm
    have hb₁ := hb.advance bs.length bs.length
    simp only [get_bind_run]
    refine (h.checkAfter hs₁ hb₁ ⟨hl, Nat.le_refl _⟩ ⟨hl', Nat.le_refl _⟩ hbs).bind
      fun _ d₂ e₂ hd₂ he₂ hs₂ => ?_
    obtain ⟨rfl, -⟩ := (checkAfter_eq_ok n hb₁.left hl (Nat.le_refl _)).1 hd₂
    obtain ⟨rfl, -⟩ := (checkAfter_eq_ok n hb₁.right hl' (Nat.le_refl _)).1 he₂
    refine (hv _ _ hs₂).bind fun v d₃ e₃ hd₃ he₃ hs₃ => ?_
    obtain ⟨vs, u, -, -, rfl⟩ := (hvr _ _ _).1 hd₃
    obtain ⟨vs', u', -, -, rfl⟩ := (hvr _ _ _).1 he₃
    exact (ih hs₃ ((SameKey.of_read hr hr').advance _ _)).bind fun es _ _ _ _ hs₄ => .ok hs₄

theorem entries (h : C.OnDecoders n) (hkr : Reads key K) (hvr : Reads value V)
    (hk : C.onDecoder.Coupled key key) (hv : C.onDecoder.Coupled value value) :
    C.onDecoder.Coupled (entries n.format key value) (entries n.format key value) :=
  (h.read .length).bind fun m => h.container fun d e hs =>
    h.eachEntry hkr hvr hk hv m hs (⟨by simp, by simp, rfl⟩ : SameKey d e none none)

/-- Every decoder is coupled with itself. -/
theorem decode (h : C.OnDecoders n) (s : Schema) :
    C.onDecoder.Coupled (s.decode n.format) (s.decode n.format) := by
  induction s with
  | scalar s => exact h.read (.scalar s)
  | option s ih =>
    refine (h.read .presence).bind fun present : Bool => ?_
    cases present with
    | false => exact .pure none
    | true => exact ih.map some
  | boxed s ih => exact ih
  | pair a b iha ihb => exact iha.bind fun x => ihb.map (x, ·)
  | seq s ih => exact h.list ih
  | map it k v ihk ihv =>
    exact (h.entries (k.reads_decode n) (v.reads_decode n) ihk ihv).map _
  | set it k ih =>
    exact (h.entries (k.reads_decode n) reads_empty ih (.pure ())).map
      fun es => Entries.keysOfList k.compare (es.map (·.1))
  | framed s ih => exact h.container ih
  | choice count alt ih =>
    exact (h.readVariant count).bind fun i => (ih i).map fun x => (⟨i, x⟩ : (Schema.choice count alt).Val)
  | tree => exact h.tree

end OnDecoders

end Coupling

end WireCodec
