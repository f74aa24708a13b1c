import WireCodec.Format.Name
import WireCodec.Proofs.Scripts
import WireCodec.Proofs.Values
import WireCodec.Schema.Decode
import WireCodec.Schema.Encode

/-!
# What calls are made of

Every call of a codec comes down to a few operations on its state, one after the other, each of
them chosen in view of how those before it ended. What every operation keeps is therefore kept by
every call, and it holds whenever a call comes to one of its operations.
-/
namespace WireCodec

/-- Goes on in view of how `m` ended. -/
def attempt {σ α β : Type} (m : EStateM Error σ α) (f : Except Error α → EStateM Error σ β) :
    EStateM Error σ β := fun s =>
  match m s with
  | .ok a t => f (.ok a) t
  | .error x t => f (.error x) t

/-- Operations one after the other, with failures passed on or dealt with. -/
inductive MadeOf {σ : Type} (Op : (α : Type) → EStateM Error σ α → Prop) :
    {α : Type} → EStateM Error σ α → Prop
  | op {α : Type} {m : EStateM Error σ α} (h : Op α m) : MadeOf Op m
  | pure {α : Type} (a : α) : MadeOf Op (pure a)
  | throw {α : Type} (x : Error) : MadeOf Op (throw x : EStateM Error σ α)
  | look {α : Type} {f : σ → EStateM Error σ α} (h : ∀ s, MadeOf Op (f s)) :
      MadeOf Op (do f (← get))
  | attempt {α β : Type} {m : EStateM Error σ α} {f : Except Error α → EStateM Error σ β}
      (h : MadeOf Op m) (hf : ∀ r, MadeOf Op (f r)) : MadeOf Op (attempt m f)

/-- Wherever `m`, started in `s`, comes to an operation or looks at the state, the state satisfies
`I`. -/
inductive Safe {σ : Type} (Op : (α : Type) → EStateM Error σ α → Prop) (I : σ → Prop) :
    {α : Type} → EStateM Error σ α → σ → Prop
  | op {α : Type} {m : EStateM Error σ α} {s : σ} (h : Op α m) (hs : I s) : Safe Op I m s
  | pure {α : Type} (a : α) (s : σ) : Safe Op I (pure a) s
  | throw {α : Type} (x : Error) (s : σ) : Safe Op I (throw x : EStateM Error σ α) s
  | look {α : Type} {f : σ → EStateM Error σ α} {s : σ} (hs : I s) (h : Safe Op I (f s) s) :
      Safe Op I (do f (← get)) s
  | attempt {α β : Type} {m : EStateM Error σ α} {f : Except Error α → EStateM Error σ β} {s : σ}
      (h : Safe Op I m s) (hf : ∀ r t, m s = ended r t → Safe Op I (f r) t) :
      Safe Op I (attempt m f) s

section Programs

variable {σ α β : Type} {Op : (α : Type) → EStateM Error σ α → Prop} {R : σ → σ → Prop}
  {I : σ → Prop} {m : EStateM Error σ α}

theorem attempt_of_ended {f : Except Error α → EStateM Error σ β} {s t : σ} {r : Except Error α}
    (h : m s = ended r t) : attempt m f s = f r t := by
  rw [attempt, h]
  cases r <;> rfl

/-- A sequence goes on after an answer and passes a failure on. -/
theorem bind_eq_attempt (m : EStateM Error σ α) (f : α → EStateM Error σ β) :
    (m >>= f) = attempt m fun
      | .ok a => f a
      | .error x => throw x := by
  funext s
  obtain ⟨r, t, h⟩ := exists_ended m s
  rw [attempt_of_ended h]
  cases r with
  | ok a => exact bind_of_ok h
  | error x => exact bind_of_error h

/-- A container takes a unit, and gives it back however its body ends. -/
theorem container_eq_attempt [HasDepth σ] (m : EStateM Error σ α) :
    HasDepth.container m = HasDepth.enter >>= fun _ => attempt m fun r => HasDepth.exit >>= fun _ =>
      match r with
      | .ok a => pure a
      | .error x => throw x := by
  funext s
  rw [HasDepth.container]
  cases hs : HasDepth.enter s with
  | error x t => exact (bind_of_error hs).symm
  | ok u t =>
    obtain ⟨r, t', h⟩ := exists_ended m t
    rw [bind_of_ok hs, attempt_of_ended h]
    simp only [h]
    cases r <;> rfl

namespace MadeOf

theorem bind {f : α → EStateM Error σ β} (h : MadeOf Op m) (hf : ∀ a, MadeOf Op (f a)) :
    MadeOf Op (m >>= f) := by
  rw [bind_eq_attempt]
  refine .attempt h fun r => ?_
  cases r with
  | ok a => exact hf a
  | error x => exact .throw x

theorem map (h : MadeOf Op m) (g : α → β) : MadeOf Op (do return g (← m)) :=
  h.bind fun a => .pure (g a)

theorem container [HasDepth σ] (henter : Op Unit HasDepth.enter) (hexit : Op Unit HasDepth.exit)
    (h : MadeOf Op m) : MadeOf Op (HasDepth.container m) := by
  rw [container_eq_attempt]
  refine (MadeOf.op henter).bind fun _ => .attempt h fun r => (MadeOf.op hexit).bind fun _ => ?_
  cases r with
  | ok a => exact .pure a
  | error x => exact .throw x

/-- A relation between a state and a later one that every operation keeps is kept by every call. -/
theorem keeps [IsPreorder σ R] (hop : ∀ α m, Op α m → Keeps R m) (h : MadeOf Op m) : Keeps R m := by
  induction h with
  | op h => exact hop _ _ h
  | pure a =>
    intro s r t hr
    obtain ⟨-, rfl⟩ := ended_inj (r := .ok a) hr
    exact refl_of R s
  | throw x =>
    intro s r t hr
    obtain ⟨-, rfl⟩ := ended_inj (r := .error x) hr
    exact refl_of R s
  | look h ih => exact fun s r t hr => ih s s r t hr
  | attempt h hf ihm ihf =>
    intro s r t hr
    obtain ⟨r', u, hu⟩ := exists_ended _ s
    rw [attempt_of_ended hu] at hr
    exact trans_of R (ihm s r' u hu) (ihf r' u r t hr)

/-- What operations cannot end holds wherever a run comes to one of them. -/
theorem safe [IsPreorder σ R] (hop : ∀ α m, Op α m → Keeps R m) (hI : ∀ s t, R s t → I s → I t)
    (h : MadeOf Op m) {s : σ} (hs : I s) : Safe Op I m s := by
  induction h generalizing s with
  | op h => exact .op h hs
  | pure a => exact .pure a s
  | throw x => exact .throw x s
  | look h ih => exact .look hs (ih s hs)
  | attempt h hf ihm ihf =>
    exact .attempt (ihm hs) fun r t hr => ihf r (hI s t (h.keeps hop s r t hr) hs)

end MadeOf

end Programs

namespace Cursor

/-- The operations of a cursor. -/
inductive Op : (α : Type) → Reading α → Prop
  | take (k : Nat) : Op Bytes (take k)
  | byte : Op UInt8 byte

theorem madeOf_take (k : Nat) : MadeOf Op (take k) := .op (.take k)
theorem madeOf_byte : MadeOf Op byte := .op .byte

end Cursor

/-- The reads of the format are made of those of the cursor. -/
structure Format.MadeOfReads (F : Format) : Prop where
  length : MadeOf Cursor.Op F.decodeLength
  variantIndex : MadeOf Cursor.Op F.decodeVariantIndex

namespace Cursor

variable {F : Format}

theorem madeOf_readLength (hF : F.MadeOfReads) : MadeOf Op F.readLength := by
  refine hF.length.bind fun k => ?_
  split
  · exact .pure _
  · exact .throw _

theorem madeOf_readBool : MadeOf Op Scalar.readBool := by
  refine madeOf_byte.bind fun b => ?_
  split
  · exact .pure _
  · split
    · exact .pure _
    · exact .throw _

/-- A character is read byte by byte, up to four of them. -/
theorem madeOf_readCharFrom (start k : Nat) (seen : Bytes) :
    MadeOf Op (Scalar.readCharFrom start k seen) := by
  induction k generalizing seen with
  | zero => exact .throw _
  | succ k ih =>
    rw [Scalar.readCharFrom]
    refine madeOf_byte.bind fun b => ?_
    dsimp only
    split
    · exact .pure _
    · exact .throw _
    · split
      · exact .throw _
      · exact ih _

theorem madeOf_readText (hF : F.MadeOfReads) : MadeOf Op (Scalar.readText F) := by
  refine (madeOf_readLength hF).bind fun k => .look fun c => (madeOf_take k).bind fun bs => ?_
  split
  · exact .pure _
  · exact .throw _

theorem madeOf_readScalar (hF : F.MadeOfReads) (s : Scalar) : MadeOf Op (s.read F) := by
  cases s with
  | unit => exact .pure _
  | bool => exact madeOf_readBool
  | uint w => exact (madeOf_take w.bytes).map _
  | int w => exact (madeOf_take w.bytes).map _
  | float p => exact (madeOf_take p.width.bytes).map _
  | char => exact .look fun c => madeOf_readCharFrom c.offset 4 []
  | text => exact madeOf_readText hF
  | blob => exact (madeOf_readLength hF).bind madeOf_take

theorem madeOf_readPresence : MadeOf Op Primitive.readPresence := by
  refine madeOf_byte.bind fun b => ?_
  cases Presence.ofByte b with
  | ok p => exact .pure _
  | error x => exact .throw x

/-- Reading a primitive is nothing but taking slices and bytes. -/
theorem madeOf_read (hF : F.MadeOfReads) (p : Primitive) : MadeOf Op (p.read F) := by
  cases p with
  | scalar s => exact madeOf_readScalar hF s
  | presence => exact madeOf_readPresence
  | length => exact madeOf_readLength hF
  | variantIndex => exact hF.variantIndex

theorem madeOf_decodeFrom (weight value k : Nat) :
    MadeOf Op (Uleb128.decodeFrom weight value k) := by
  induction k generalizing weight value with
  | zero => exact .throw _
  | succ k ih =>
    rw [Uleb128.decodeFrom]
    refine madeOf_byte.bind fun b => ?_
    dsimp only
    split
    · split
      · exact .throw _
      · split
        · exact .pure _
        · exact .throw _
    · exact ih _ _

theorem madeOf_within (m k : Nat) :
    MadeOf Op (if k ≤ m then pure k else throw (.lengthOutOfRange k)) := by
  split
  · exact .pure k
  · exact .throw _

end Cursor

open Cursor in
/-- Both formats only take slices and bytes. -/
theorem FormatName.madeOfReads (n : FormatName) : n.format.MadeOfReads := by
  cases n with
  | canonical =>
    exact ⟨(madeOf_decodeFrom 1 0 5).bind fun k => madeOf_within _ k.toNat, madeOf_decodeFrom 1 0 5⟩
  | fast =>
    exact ⟨(madeOf_take 8).bind fun bs => madeOf_within _ bs.toNat, (madeOf_take 4).map _⟩

namespace Decoder

/-- The operations of a decoder, and of the cursor in it. -/
inductive Op (F : Format) : (α : Type) → Decoding α → Prop
  | read {α : Type} {m : Reading α} (h : Cursor.Op α m) : Op F α (reading m)
  | check (a b c d : Nat) : Op F Unit (checkKeys F a b c d)
  | enter : Op F Unit HasDepth.enter
  | exit : Op F Unit HasDepth.exit
  | reset : Op F Unit HasDepth.reset

variable {F : Format} {α β : Type}

theorem reading_get_bind (f : Cursor → Reading α) :
    reading (do f (← get)) = (do reading (f (← get).cursor) : Decoding α) := rfl

theorem reading_attempt (m : Reading α) (f : Except Error α → Reading β) :
    reading (attempt m f) = attempt (reading m) fun r => reading (f r) := by
  funext d
  simp only [reading, attempt]
  cases m d.cursor <;> rfl

/-- What is made of a cursor's operations is made of the decoder's. -/
theorem madeOf_reading {m : Reading α} (h : MadeOf Cursor.Op m) : MadeOf (Op F) (reading m) := by
  induction h with
  | op h => exact .op (.read h)
  | pure a => exact .pure a
  | throw x => exact .throw x
  | look h ih =>
    rw [reading_get_bind]
    exact .look fun d => ih d.cursor
  | attempt h hf ihm ihf =>
    rw [reading_attempt]
    exact .attempt ihm ihf

theorem madeOf_read (hF : F.MadeOfReads) (p : Primitive) : MadeOf (Op F) (read F p) :=
  madeOf_reading (Cursor.madeOf_read hF p)

theorem madeOf_container {m : Decoding α} (h : MadeOf (Op F) m) :
    MadeOf (Op F) (HasDepth.container m) := h.container .enter .exit

theorem madeOf_each {f : Decoding α} (h : MadeOf (Op F) f) (k : Nat) : MadeOf (Op F) (each f k) := by
  induction k with
  | zero => exact .pure []
  | succ k ih => exact h.bind fun a => ih.map (a :: ·)

theorem madeOf_list (hF : F.MadeOfReads) {f : Decoding α} (h : MadeOf (Op F) f) :
    MadeOf (Op F) (list F f) :=
  (madeOf_read hF .length).bind fun k => madeOf_container (madeOf_each h k)

theorem madeOf_checkAfter (before : Option (Nat × Nat)) (start stop : Nat) :
    MadeOf (Op F) (checkAfter F before start stop) := by
  cases before with
  | none => exact .pure ()
  | some p => exact .op (.check p.1 p.2 start stop)

/-- Of one entry: its key, the check on it, its value. -/
theorem madeOf_eachEntry {key : Decoding α} {value : Decoding β} (hk : MadeOf (Op F) key)
    (hv : MadeOf (Op F) value) (before : Option (Nat × Nat)) (k : Nat) :
    MadeOf (Op F) (eachEntry F key value before k) := by
  induction k generalizing before with
  | zero => exact .pure []
  | succ k ih =>
    refine .look fun d => hk.bind fun x => .look fun e => ?_
    exact (madeOf_checkAfter before d.offset e.offset).bind fun _ => hv.bind fun y => (ih _).map _

theorem madeOf_entries (hF : F.MadeOfReads) {key : Decoding α} {value : Decoding β}
    (hk : MadeOf (Op F) key) (hv : MadeOf (Op F) value) : MadeOf (Op F) (entries F key value) :=
  (madeOf_read hF .length).bind fun k => madeOf_container (madeOf_eachEntry hk hv none k)

theorem madeOf_readVariant (hF : F.MadeOfReads) (count : Nat) :
    MadeOf (Op F) (readVariant F count) := by
  refine (madeOf_reading hF.variantIndex).bind fun i => ?_
  split
  · exact .pure _
  · exact .throw _

/-- Below the last level, only a failure is left. -/
theorem madeOf_treeBelow (hF : F.MadeOfReads) (k : Nat) : MadeOf (Op F) (treeBelow F k) := by
  induction k with
  | zero => exact .look fun d => .throw (.depthExceeded d.depth.max)
  | succ k ih => exact (madeOf_list hF ih).map Tree.node

end Decoder

open Decoder in
/-- Decoding is made of reads, checks on keys and containers, whatever the schema. -/
theorem Schema.madeOf_decode {F : Format} (hF : F.MadeOfReads) (s : Schema) :
    MadeOf (Op F) (s.decode F) := by
  induction s with
  | scalar s => exact madeOf_read hF (.scalar s)
  | option s ih =>
    refine (madeOf_read hF .presence).bind fun present : Bool => ?_
    cases present with
    | false => exact .pure none
    | true => exact ih.map some
  | boxed s ih => exact ih
  | pair a b iha ihb => exact iha.bind fun x => ihb.map (x, ·)
  | seq s ih => exact madeOf_list hF ih
  | map it k v ihk ihv => exact (madeOf_entries hF ihk ihv).map _
  | set it k ih =>
    exact (madeOf_entries hF ih (.pure ())).map fun es => Entries.keysOfList k.compare (es.map (·.1))
  | framed s ih => exact madeOf_container ih
  | choice count alt ih =>
    exact (madeOf_readVariant hF count).bind fun i =>
      (ih i).map fun x => (⟨i, x⟩ : (Schema.choice count alt).Val)
  | tree => exact .look fun d => madeOf_treeBelow hF (d.depth.remaining + 1)

namespace Encoder

/-- The operations of an encoder. -/
inductive Op (F : Format) : (α : Type) → Encoding α → Prop
  | write (p : Primitive) (v : p.Val) : Op F Unit (write F p v)
  | sort (offsets : List Nat) : Op F Unit (sortEntries F offsets)
  | clear : Op F Unit (modify clear)
  | enter : Op F Unit HasDepth.enter
  | exit : Op F Unit HasDepth.exit
  | reset : Op F Unit HasDepth.reset

variable {F : Format} {α : Type} {f : α → Encoding Unit} {as : List α}

theorem madeOf_write (p : Primitive) (v : p.Val) : MadeOf (Op F) (write F p v) := .op (.write p v)

theorem madeOf_container {m : Encoding α} (h : MadeOf (Op F) m) :
    MadeOf (Op F) (HasDepth.container m) := h.container .enter .exit

theorem madeOf_each (h : ∀ a ∈ as, MadeOf (Op F) (f a)) : MadeOf (Op F) (each f as) := by
  induction as with
  | nil => exact .pure ()
  | cons a as ih =>
    rw [List.forall_mem_cons] at h
    exact h.1.bind fun _ => ih h.2

theorem madeOf_eachAt (h : ∀ a ∈ as, MadeOf (Op F) (f a)) : MadeOf (Op F) (eachAt f as) := by
  induction as with
  | nil => exact .pure []
  | cons a as ih =>
    rw [List.forall_mem_cons] at h
    exact .look fun e => h.1.bind fun _ => (ih h.2).map (e.offset :: ·)

theorem madeOf_list (h : ∀ a ∈ as, MadeOf (Op F) (f a)) : MadeOf (Op F) (list F f as) :=
  (madeOf_write .length as.length).bind fun _ => madeOf_container (madeOf_each h)

theorem madeOf_entries (h : ∀ a ∈ as, MadeOf (Op F) (f a)) : MadeOf (Op F) (entries F f as) :=
  (madeOf_write .length as.length).bind fun _ =>
    madeOf_container ((madeOf_eachAt h).bind fun os => .op (.sort os))

theorem madeOf_tree (t : Tree) : MadeOf (Op F) (tree F t) := by
  induction t using Tree.induct with
  | h ts ih =>
    rw [tree_node]
    exact madeOf_list ih

end Encoder

open Encoder in
/-- Encoding is made of writes, sorts and containers, whatever the schema and the value. -/
theorem Schema.madeOf_encode (F : Format) (s : Schema) (v : s.Val) :
    MadeOf (Op F) (s.encode F v) := by
  induction s with
  | scalar s => exact madeOf_write (.scalar s) v
  | option s ih =>
    cases v with
    | none => exact madeOf_write .presence false
    | some v => exact (madeOf_write .presence true).bind fun _ => ih v
  | boxed s ih => exact ih v
  | pair a b iha ihb => exact (iha v.1).bind fun _ => ihb v.2
  | seq s ih => exact madeOf_list fun u _ => ih u
  | map it k t ihk iht => exact madeOf_entries fun e _ => (ihk e.1).bind fun _ => iht e.2
  | set it k ih => exact madeOf_entries fun u _ => ih u
  | framed s ih => exact madeOf_container (ih v)
  | choice count alt ih =>
    exact (madeOf_write .variantIndex (.ofNat v.1)).bind fun _ => ih v.1 v.2
  | tree => exact madeOf_tree v

end WireCodec
