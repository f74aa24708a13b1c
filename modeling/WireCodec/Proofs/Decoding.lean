import WireCodec.Proofs.Grammar
import WireCodec.Proofs.Primitives
import WireCodec.Schema.Whole

/-!
# Decoding is following the grammar

A decoder succeeds just where the grammar has a byte string for a value at the front
of what is left to read, and answers that value. It passes these bytes, and neither
the depth nor what comes before or after them makes a difference. For a map this
means that the slices in which keys are looked up again are the bytes of the keys.
-/
namespace WireCodec

open HasDepth (container)

theorem Cursor.extract_offset {c : Cursor} {bs t : Bytes} (h : c.rest = bs ++ t) :
    c.input.extract c.offset (c.offset + bs.length) = bs := by
  rw [List.extract_eq_take_drop, Nat.add_sub_cancel_left]
  change c.rest.take bs.length = bs
  rw [h, List.take_left]

/-- Elements that each have one byte string have one altogether. -/
theorem forall₂_eq_map {α β : Type} {P : α → Prop} {f : α → β} {as : List α} {bs : List β} :
    List.Forall₂ (fun a b => P a ∧ b = f a) as bs ↔ (∀ a ∈ as, P a) ∧ bs = as.map f := by
  induction as generalizing bs with
  | nil => simp [List.forall₂_nil_left_iff]
  | cons a as ih =>
    rw [List.forall₂_cons_left_iff, List.forall_mem_cons, List.map_cons]
    constructor
    · intro hrun
      obtain ⟨_, _, ⟨ha, rfl⟩, h, rfl⟩ := hrun
      obtain ⟨has, rfl⟩ := ih.1 h
      exact ⟨⟨ha, has⟩, rfl⟩
    · intro hspec
      obtain ⟨⟨ha, has⟩, rfl⟩ := hspec
      exact ⟨_, _, ⟨ha, rfl⟩, ih.2 ⟨has, rfl⟩, rfl⟩

namespace Decoder

variable {α β : Type}

/-- `m` answers `a` just where `P` has bytes for `a` at the front of the input, and passes them. -/
def Reads (m : Decoding α) (P : Grammar α) : Prop :=
  ∀ d a d', m d = .ok a d' ↔ ∃ bs t, d.cursor.rest = bs ++ t ∧ P d.depth.remaining a bs ∧
    d' = ⟨d.cursor.advance bs.length, d.depth⟩

theorem Reads.congr {m : Decoding α} {P Q : Grammar α} (h : Reads m P)
    (hPQ : ∀ r a bs, P r a bs ↔ Q r a bs) : Reads m Q := by
  intro d a d'
  simp only [h d a d', hPQ]

theorem Reads.pure (a : α) : Reads (pure a) fun _ b bs => b = a ∧ bs = [] := by
  intro d b d'
  rw [pure_eq_ok]
  constructor
  · intro hrun
    obtain ⟨rfl, rfl⟩ := hrun
    exact ⟨[], d.cursor.rest, rfl, ⟨rfl, rfl⟩, rfl⟩
  · intro hspec
    obtain ⟨_, t, -, ⟨rfl, rfl⟩, rfl⟩ := hspec
    exact ⟨rfl, rfl⟩

/-- One step passes the front of the bytes and the next one the rest, with the same depth. -/
theorem Reads.bind {m : Decoding α} {f : α → Decoding β} {P : Grammar α} {Q : α → Grammar β}
    (h : Reads m P) (h' : ∀ a, Reads (f a) (Q a)) :
    Reads (m >>= f) fun r b bs => ∃ a cs ds, P r a cs ∧ Q a r b ds ∧ bs = cs ++ ds := by
  intro d b d'
  rw [bind_eq_ok]
  constructor
  · intro hrun
    obtain ⟨a, d₁, hm, hf⟩ := hrun
    obtain ⟨cs, t, hr, hP, rfl⟩ := (h _ _ _).1 hm
    obtain ⟨ds, t', hr', hQ, rfl⟩ := (h' a _ _ _).1 hf
    rw [Cursor.rest_advance_append hr] at hr'
    refine ⟨cs ++ ds, t', ?_, ⟨a, cs, ds, hP, hQ, rfl⟩, ?_⟩
    · rw [hr, hr', List.append_assoc]
    · rw [Cursor.advance_advance, List.length_append]
  · intro hspec
    obtain ⟨_, t, hr, ⟨a, cs, ds, hP, hQ, rfl⟩, rfl⟩ := hspec
    rw [List.append_assoc] at hr
    refine ⟨a, _, (h _ _ _).2 ⟨cs, _, hr, hP, rfl⟩, (h' a _ _ _).2 ⟨ds, t, ?_, hQ, ?_⟩⟩
    · exact Cursor.rest_advance_append hr
    · rw [Cursor.advance_advance, List.length_append]

theorem Reads.map {m : Decoding α} {P : Grammar α} (h : Reads m P) (f : α → β) :
    Reads (do return f (← m)) fun r b bs => ∃ a, b = f a ∧ P r a bs := by
  apply (h.bind fun a => Reads.pure (f a)).congr
  intro r b bs
  constructor
  · intro hrun
    obtain ⟨a, cs, _, hP, ⟨rfl, rfl⟩, rfl⟩ := hrun
    rw [List.append_nil]
    exact ⟨a, rfl, hP⟩
  · intro hspec
    obtain ⟨a, rfl, hP⟩ := hspec
    exact ⟨a, bs, [], hP, ⟨rfl, rfl⟩, (List.append_nil bs).symm⟩

theorem container_run {m : Decoding α} {d d' : Decoder} {a : α} :
    container m d = .ok a d' ↔
      ∃ b u, d.depth.enter = .ok b ∧ m ⟨d.cursor, b⟩ = .ok a u ∧ d' = ⟨u.cursor, u.depth.exit⟩ :=
  container_eq_ok

/-- The body reads with one unit less, and afterwards the depth is what it was. -/
theorem Reads.container {m : Decoding α} {P : Grammar α} (h : Reads m P) :
    Reads (container m) (Grammar.inside P) := by
  intro d a d'
  rw [container_run]
  constructor
  · intro hrun
    obtain ⟨b, u, hb, hm, rfl⟩ := hrun
    obtain ⟨bs, t, hr, hP, rfl⟩ := (h _ _ _).1 hm
    obtain ⟨-, hrem⟩ := DepthBudget.enter_eq_ok.1 hb
    refine ⟨bs, t, hr, ⟨_, hrem, hP⟩, ?_⟩
    simp only [DepthBudget.exit_of_enter hb]
  · intro hspec
    obtain ⟨bs, t, hr, ⟨q, hq, hP⟩, rfl⟩ := hspec
    have hle := d.depth.remaining_le
    have hb : d.depth.enter = .ok ⟨d.depth.max, q, by omega⟩ :=
      DepthBudget.enter_eq_ok.2 ⟨rfl, hq⟩
    refine ⟨_, _, hb, (h _ _ _).2 ⟨bs, t, hr, hP, rfl⟩, ?_⟩
    simp only [DepthBudget.exit_of_enter hb]

theorem offset_le_of_ok {m : Decoding α} {P : Grammar α} (h : Reads m P) {d d' : Decoder} {a : α}
    (hm : m d = .ok a d') : d.offset ≤ d'.offset := by
  obtain ⟨bs, t, -, -, rfl⟩ := (h _ _ _).1 hm
  exact Nat.le_add_right ..

section Reading

variable {m : Reading α} {c c' : Cursor} {a : α}

theorem reading_of_ended {r : Except Error α} (b : DepthBudget) (h : m c = ended r c') :
    reading m ⟨c, b⟩ = ended r ⟨c', b⟩ := by
  simp only [reading, h]
  cases r <;> rfl

theorem reading_of_ok (b : DepthBudget) (h : m c = .ok a c') : reading m ⟨c, b⟩ = .ok a ⟨c', b⟩ :=
  reading_of_ended (r := .ok a) b h

theorem reading_of_error {x : Error} (b : DepthBudget) (h : m c = .error x c') :
    reading m ⟨c, b⟩ = .error x ⟨c', b⟩ := reading_of_ended (r := .error x) b h

theorem reading_eq_ok {d d' : Decoder} :
    reading m d = .ok a d' ↔ m d.cursor = .ok a d'.cursor ∧ d'.depth = d.depth := by
  constructor
  · intro h
    cases hm : m d.cursor with
    | ok a' c =>
      rw [reading_of_ok d.depth hm] at h
      cases h
      exact ⟨rfl, rfl⟩
    | error x c =>
      rw [reading_of_error d.depth hm] at h
      cases h
  · intro hspec
    obtain ⟨hm, hd⟩ := hspec
    rw [reading_of_ok d.depth hm, ← hd]

end Reading

/-- What a cursor takes, a decoder takes. -/
theorem reads_reading {m : Reading α} {P : α → Bytes → Prop}
    (ht : ∀ a bs, P a bs → Cursor.Takes m bs a) (hy : Cursor.Yields m P) :
    Reads (reading m) fun _ => P := by
  intro d a d'
  rw [reading_eq_ok]
  constructor
  · intro h
    obtain ⟨bs, t, hr, hc, hP⟩ := hy _ _ _ h.1
    exact ⟨bs, t, hr, hP, by rw [← hc, ← h.2]⟩
  · intro hspec
    obtain ⟨bs, t, hr, hP, rfl⟩ := hspec
    exact ⟨ht a bs hP _ t hr, rfl⟩

variable (n : FormatName)

/-- A primitive is read from its layout, at any depth. -/
theorem reads_read (p : Primitive) :
    Reads (read n.format p) fun _ v bs => p.Short n.format.maxLength v ∧ bs = p.wire n v := by
  refine reads_reading ?_ (p.yields_read n)
  rintro v _ ⟨h, rfl⟩
  exact p.takes_read n h

/-- The induction is on how many elements are left to read. -/
theorem reads_each {f : Decoding α} {P : Grammar α} (h : Reads f P) (k : Nat) :
    Reads (each f k) fun r as bs => as.length = k ∧ Grammar.all P r as bs := by
  induction k with
  | zero =>
    apply (Reads.pure []).congr
    intro r as bs
    constructor
    · intro hrun
      obtain ⟨rfl, rfl⟩ := hrun
      exact ⟨rfl, [], .nil, rfl⟩
    · intro hspec
      obtain ⟨hl, cs, hcs, rfl⟩ := hspec
      obtain rfl := List.eq_nil_of_length_eq_zero hl
      rw [List.forall₂_nil_left_iff] at hcs
      subst hcs
      exact ⟨rfl, rfl⟩
  | succ k ih =>
    apply (h.bind fun a => ih.map (a :: ·)).congr
    intro r as bs
    constructor
    · intro hrun
      obtain ⟨a, c, _, ha, ⟨as, rfl, hl, cs, hcs, rfl⟩, rfl⟩ := hrun
      exact ⟨congrArg (· + 1) hl, c :: cs, .cons ha hcs, rfl⟩
    · intro hspec
      obtain ⟨hl, cs, hcs, rfl⟩ := hspec
      cases hcs with
      | nil => cases hl
      | cons ha hcs => exact ⟨_, _, _, ha, ⟨_, rfl, Nat.succ.inj hl, _, hcs, rfl⟩, rfl⟩

/-- A count and so many elements in a container are a counted list. -/
theorem reads_counted {f : Nat → Decoding (List α)} {P : Grammar (List α)}
    (h : ∀ k, Reads (f k) fun r as bs => as.length = k ∧ P r as bs) :
    Reads (do
      let k ← read n.format .length
      container (f k)) (Grammar.counted n P) := by
  apply ((reads_read n .length).bind fun k => (h k).container).congr
  intro r as bs
  constructor
  · intro hrun
    obtain ⟨_, _, cs, ⟨hk, rfl⟩, ⟨q, rfl, rfl, hP⟩, rfl⟩ := hrun
    exact ⟨hk, cs, ⟨q, rfl, hP⟩, rfl⟩
  · intro hspec
    obtain ⟨hk, cs, ⟨q, rfl, hP⟩, rfl⟩ := hspec
    exact ⟨as.length, _, cs, ⟨hk, rfl⟩, ⟨q, rfl, rfl, hP⟩, rfl⟩

theorem reads_list {f : Decoding α} {P : Grammar α} (h : Reads f P) :
    Reads (list n.format f) (Grammar.counted n (Grammar.all P)) := reads_counted n (reads_each h)

theorem reads_readVariant (count : Nat) : Reads (readVariant n.format count) fun _ i bs =>
    i.val < 2 ^ 32 ∧ bs = n.variantBytes i := by
  refine ((reads_read n .variantIndex).bind (Q := fun i _ j bs => j.val = i.toNat ∧ bs = [])
    fun i => ?_).congr fun r i bs => ?_
  · intro d j d'
    split
    · rename_i hi
      refine ((Reads.pure _).congr (Q := fun _ j bs => j.val = i.toNat ∧ bs = []) ?_) d j d'
      intro r j bs
      rw [Fin.ext_iff]
    · rename_i hi
      refine iff_of_false throw_ne_ok ?_
      intro hspec
      obtain ⟨_, _, -, ⟨hj, -⟩, -⟩ := hspec
      exact hi (hj ▸ j.isLt)
  · constructor
    · intro hspec
      obtain ⟨j, _, _, ⟨-, rfl⟩, ⟨hj, rfl⟩, rfl⟩ := hspec
      rw [hj, List.append_nil]
      exact ⟨j.toNat_lt, rfl⟩
    · intro hspec
      obtain ⟨hi, rfl⟩ := hspec
      have hj : (UInt32.ofNat i.val).toNat = i.val := UInt32.toNat_ofNat_of_lt' hi
      refine ⟨.ofNat i, _, [], ⟨trivial, rfl⟩, ⟨hj.symm, rfl⟩, ?_⟩
      rw [List.append_nil]
      exact (n.variantBytes_ofNat i).symm

/-- The bytes of the key before, looked up in the input. -/
def keyBefore (d : Decoder) (before : Option (Nat × Nat)) : List Bytes :=
  (before.map fun p => d.cursor.input.extract p.1 p.2).toList

theorem consumed_eq_ok {a b : Nat} {d d' : Decoder} {bs : Bytes} (ha : a ≤ b) (hb : b ≤ d.offset) :
    consumed a b d = .ok bs d' ↔ d.cursor.input.extract a b = bs ∧ d = d' := by
  rw [consumed, if_pos ⟨ha, hb⟩, EStateM.Result.ok.injEq]

/-- A key between the two places passes the check where it may stand behind the key before it. -/
theorem checkAfter_eq_ok {before : Option (Nat × Nat)} {start stop : Nat} {d d' : Decoder}
    (hb : ∀ p ∈ before, p.1 ≤ p.2 ∧ p.2 ≤ d.offset) (hs : start ≤ stop) (hd : stop ≤ d.offset) :
    checkAfter n.format before start stop d = .ok () d' ↔ d = d' ∧
      Grammar.KeyOrder n (keyBefore d before ++ [d.cursor.input.extract start stop]) := by
  cases before with
  | none =>
    rw [checkAfter, pure_eq_ok]
    simp only [true_and, keyBefore, Option.map_none, Option.toList_none, List.nil_append,
      Grammar.KeyOrder, List.isChain_singleton, and_true]
  | some p =>
    obtain ⟨hp, hpd⟩ := hb p rfl
    have hchain : Grammar.KeyOrder n (keyBefore d (some p) ++ [d.cursor.input.extract start stop]) ↔
        n.format.checkKeyOrder (d.cursor.input.extract p.1 p.2)
          (d.cursor.input.extract start stop) = .ok () := List.isChain_pair
    rw [hchain]
    simp only [checkAfter, checkKeys, bind_eq_ok, consumed_eq_ok hp hpd]
    constructor
    · intro hrun
      obtain ⟨_, _, ⟨rfl, rfl⟩, _, _, hk, h⟩ := hrun
      obtain ⟨rfl, rfl⟩ := (consumed_eq_ok hs hd).1 hk
      cases hc : n.format.checkKeyOrder (d.cursor.input.extract p.1 p.2)
        (d.cursor.input.extract start stop) with
      | ok =>
        rw [hc] at h
        exact ⟨(pure_eq_ok.1 h).2, rfl⟩
      | error e =>
        rw [hc] at h
        exact absurd h throw_ne_ok
    · intro hspec
      obtain ⟨rfl, hc⟩ := hspec
      refine ⟨_, _, ⟨rfl, rfl⟩, _, _, (consumed_eq_ok hs hd).2 ⟨rfl, rfl⟩, ?_⟩
      rw [hc]
      rfl

theorem checkKeyOrder_cases (n : FormatName) (a b : Bytes) :
    n.format.checkKeyOrder a b = .ok () ∨
      n = .canonical ∧ n.format.checkKeyOrder a b = .error .nonCanonicalOrder := by
  cases n with
  | canonical =>
    by_cases h : compare a b = .lt
    · exact .inl (if_pos h)
    · exact .inr ⟨rfl, if_neg h⟩
  | fast => exact .inl rfl

/-- The check looks up two stretches that have been read, so it fails for their order alone. -/
theorem checkAfter_cases {before : Option (Nat × Nat)} {start stop : Nat} {d : Decoder}
    (hb : ∀ p ∈ before, p.1 ≤ p.2 ∧ p.2 ≤ d.offset) (hs : start ≤ stop) (hd : stop ≤ d.offset) :
    checkAfter n.format before start stop d = .ok () d ∧
        Grammar.KeyOrder n (keyBefore d before ++ [d.cursor.input.extract start stop]) ∨
      checkAfter n.format before start stop d = .error .nonCanonicalOrder d ∧
        ¬ Grammar.KeyOrder n (keyBefore d before ++ [d.cursor.input.extract start stop]) ∧
        n = .canonical := by
  by_cases hk : Grammar.KeyOrder n (keyBefore d before ++ [d.cursor.input.extract start stop])
  · exact .inl ⟨(checkAfter_eq_ok n hb hs hd).2 ⟨rfl, hk⟩, hk⟩
  · cases before with
    | none => exact absurd (List.isChain_singleton _) hk
    | some p =>
      obtain hok | ⟨hn, hc⟩ := checkKeyOrder_cases n (d.cursor.input.extract p.1 p.2)
        (d.cursor.input.extract start stop)
      · exact absurd (List.isChain_pair.2 hok : Grammar.KeyOrder n [_, _]) hk
      · have hfst : consumed p.1 p.2 d = .ok (d.cursor.input.extract p.1 p.2) d := if_pos (hb p rfl)
        have hsnd : consumed start stop d = .ok (d.cursor.input.extract start stop) d :=
          if_pos ⟨hs, hd⟩
        refine .inr ⟨?_, hk, hn⟩
        simp only [checkAfter, checkKeys, bind, EStateM.bind, hfst, hsnd, hc]
        rfl

variable {key : Decoding α} {value : Decoding β} {K : Grammar α} {V : Grammar β}

theorem eachEntry_succ_eq_ok {before : Option (Nat × Nat)} {m : Nat} {d d' : Decoder}
    {es : List (α × β)} : eachEntry n.format key value before (m + 1) d = .ok es d' ↔
      ∃ k d₁ d₂ v d₃ es', key d = .ok k d₁ ∧
        checkAfter n.format before d.offset d₁.offset d₁ = .ok () d₂ ∧ value d₂ = .ok v d₃ ∧
        eachEntry n.format key value (some (d.offset, d₁.offset)) m d₃ = .ok es' d' ∧
        (k, v) :: es' = es := by
  simp only [eachEntry, bind_eq_ok, get_eq_ok, pure_eq_ok]
  constructor
  · intro hrun
    obtain ⟨_, _, ⟨rfl, rfl⟩, k, d₁, hk, _, _, ⟨rfl, rfl⟩, _, d₂, hc, v, d₃, hv, es', _, hes, rfl,
      rfl⟩ := hrun
    exact ⟨k, d₁, d₂, v, d₃, es', hk, hc, hv, hes, rfl⟩
  · intro hspec
    obtain ⟨k, d₁, d₂, v, d₃, es', hk, hc, hv, hes, rfl⟩ := hspec
    exact ⟨_, _, ⟨rfl, rfl⟩, k, d₁, hk, _, _, ⟨rfl, rfl⟩, (), d₂, hc, v, d₃, hv, es', d', hes, rfl,
      rfl⟩

theorem keyBefore_key {d : Decoder} {bs t : Bytes} (hr : d.cursor.rest = bs ++ t) (d' : Decoder)
    (hi : d'.cursor.input = d.cursor.input) :
    keyBefore d' (some (d.offset, d.offset + bs.length)) = [bs] := by
  have he := Cursor.extract_offset hr
  rw [← hi] at he
  exact congrArg (fun b => [b]) he

/-- A key that has been read and checked is one whose bytes may stand behind the key before. -/
theorem checkedKey_eq_ok (hk : Reads key K) {before : Option (Nat × Nat)} {d d₁ d₂ : Decoder} {k : α}
    (hb : ∀ p ∈ before, p.1 ≤ p.2 ∧ p.2 ≤ d.offset) :
    (key d = .ok k d₁ ∧ checkAfter n.format before d.offset d₁.offset d₁ = .ok () d₂) ↔
      ∃ bs t, d.cursor.rest = bs ++ t ∧ K d.depth.remaining k bs ∧
        Grammar.KeyOrder n (keyBefore d before ++ [bs]) ∧
        d₁ = ⟨d.cursor.advance bs.length, d.depth⟩ ∧ d₁ = d₂ := by
  have hb' : ∀ bs : Bytes, ∀ p ∈ before, p.1 ≤ p.2 ∧ p.2 ≤ d.offset + bs.length :=
    fun bs p hp => ⟨(hb p hp).1, Nat.le_trans (hb p hp).2 (Nat.le_add_right ..)⟩
  constructor
  · intro hrun
    obtain ⟨hk', hc⟩ := hrun
    obtain ⟨bs, t, hr, hK, rfl⟩ := (hk _ _ _).1 hk'
    obtain ⟨rfl, ho⟩ := (checkAfter_eq_ok n (hb' bs) (Nat.le_add_right ..) (Nat.le_refl _)).1 hc
    refine ⟨bs, t, hr, hK, ?_, rfl, rfl⟩
    rw [← Cursor.extract_offset hr]
    exact ho
  · intro hspec
    obtain ⟨bs, t, hr, hK, ho, rfl, rfl⟩ := hspec
    rw [← Cursor.extract_offset hr] at ho
    refine ⟨(hk _ _ _).2 ⟨bs, t, hr, hK, rfl⟩, ?_⟩
    exact (checkAfter_eq_ok n (hb' bs) (Nat.le_add_right ..) (Nat.le_refl _)).2 ⟨rfl, ho⟩

/-- The induction is on how many entries are left. The key before them goes into the order of theirs,
and it is looked up where it stood. -/
theorem eachEntry_eq_ok (hk : Reads key K) (hv : Reads value V) {before : Option (Nat × Nat)}
    {m : Nat} {d d' : Decoder} {es : List (α × β)} (hb : ∀ p ∈ before, p.1 ≤ p.2 ∧ p.2 ≤ d.offset) :
    eachEntry n.format key value before m d = .ok es d' ↔
      ∃ (cs : List (Bytes × Bytes)) (t : Bytes),
        d.cursor.rest = (cs.flatMap fun c => c.1 ++ c.2) ++ t ∧ es.length = m ∧
        List.Forall₂ (fun e c => K d.depth.remaining e.1 c.1 ∧ V d.depth.remaining e.2 c.2) es cs ∧
        Grammar.KeyOrder n (keyBefore d before ++ cs.map Prod.fst) ∧
        d' = ⟨d.cursor.advance (cs.flatMap fun c => c.1 ++ c.2).length, d.depth⟩ := by
  induction m generalizing before d es with
  | zero =>
    rw [eachEntry, pure_eq_ok]
    constructor
    · intro hrun
      obtain ⟨rfl, rfl⟩ := hrun
      refine ⟨[], d.cursor.rest, rfl, rfl, .nil, ?_, rfl⟩
      cases before with
      | none => exact .nil
      | some p => exact .singleton _
    · intro hspec
      obtain ⟨cs, t, -, hl, hcs, -, rfl⟩ := hspec
      obtain rfl := List.eq_nil_of_length_eq_zero hl
      rw [List.forall₂_nil_left_iff] at hcs
      subst hcs
      exact ⟨rfl, rfl⟩
  | succ m ih =>
    have hb' : ∀ kb vb : Bytes, ∀ p ∈ some (d.offset, d.offset + kb.length),
        p.1 ≤ p.2 ∧ p.2 ≤ d.offset + kb.length + vb.length := by
      intro kb vb p hp
      cases hp
      exact ⟨Nat.le_add_right .., Nat.le_add_right ..⟩
    rw [eachEntry_succ_eq_ok]
    constructor
    · intro hrun
      obtain ⟨k, d₁, d₂, v, d₃, es', hk', hc, hv', hes, rfl⟩ := hrun
      obtain ⟨kb, t₁, hr₁, hK, ho, rfl, rfl⟩ := (checkedKey_eq_ok n hk hb).1 ⟨hk', hc⟩
      obtain ⟨vb, t₂, hr₂, hV, rfl⟩ := (hv _ _ _).1 hv'
      obtain ⟨cs, t, hr₃, hl, hcs, hkeys, rfl⟩ := (ih (hb' kb vb)).1 hes
      rw [Cursor.rest_advance_append hr₂] at hr₃
      rw [Cursor.rest_advance_append hr₁] at hr₂
      have hkeys : Grammar.KeyOrder n ([kb] ++ cs.map Prod.fst) := by
        rwa [← keyBefore_key hr₁ _ rfl]
      refine ⟨(kb, vb) :: cs, t, ?_, congrArg (· + 1) hl, .cons ⟨hK, hV⟩ hcs, ?_, ?_⟩
      · rw [hr₁, hr₂, hr₃, List.flatMap_cons, List.append_assoc, List.append_assoc]
      · exact List.isChain_split.2 ⟨ho, hkeys⟩
      · simp only [Cursor.advance_advance, List.flatMap_cons, List.length_append]
    · intro hspec
      obtain ⟨cs, t, hr, hl, hcs, hkeys, rfl⟩ := hspec
      cases hcs with
      | nil => cases hl
      | @cons e c es cs hec hcs =>
        obtain ⟨hK, hV⟩ := hec
        obtain ⟨ho, hkeys⟩ := List.isChain_split.1 hkeys
        rw [List.flatMap_cons, List.append_assoc, List.append_assoc] at hr
        obtain ⟨hk', hc⟩ := (checkedKey_eq_ok n hk hb).2 ⟨c.1, _, hr, hK, ho, rfl, rfl⟩
        have hr₂ := Cursor.rest_advance_append hr
        have hr₃ := Cursor.rest_advance_append hr₂
        refine ⟨e.1, _, _, e.2, _, es, hk', hc, (hv _ _ _).2 ⟨c.2, _, hr₂, hV, rfl⟩,
          (ih (hb' c.1 c.2)).2 ⟨cs, t, hr₃, Nat.succ.inj hl, hcs, ?_, ?_⟩, rfl⟩
        · have hkey := keyBefore_key hr ⟨(d.cursor.advance c.1.length).advance c.2.length, d.depth⟩ rfl
          change Grammar.KeyOrder n (keyBefore _ (some (d.offset, d.offset + c.1.length)) ++ _)
          rw [hkey]
          exact hkeys
        · simp only [Cursor.advance_advance, List.flatMap_cons, List.length_append]

/-- Entries are read where their keys stand in an order that the format accepts. -/
theorem reads_entries (hk : Reads key K) (hv : Reads value V) :
    Reads (entries n.format key value) (Grammar.counted n (Grammar.entries n K V)) := by
  refine reads_counted n fun k => ?_
  intro d es d'
  rw [eachEntry_eq_ok n hk hv (by simp)]
  constructor
  · intro hrun
    obtain ⟨cs, t, hr, hl, hcs, hkeys, rfl⟩ := hrun
    exact ⟨_, t, hr, ⟨hl, cs, hcs, hkeys, rfl⟩, rfl⟩
  · intro hspec
    obtain ⟨_, t, hr, ⟨hl, cs, hcs, hkeys, rfl⟩, rfl⟩ := hspec
    exact ⟨cs, t, hr, hl, hcs, hkeys, rfl⟩

/-- Trees of at most `k` levels. -/
theorem reads_treeBelow (k : Nat) : Reads (treeBelow n.format k) fun r t bs =>
    (t.depth ≤ k ∧ t.Short n.format.maxLength ∧ t.depth ≤ r) ∧ bs = t.wire n := by
  induction k with
  | zero =>
    intro d t d'
    refine iff_of_false nofun ?_
    intro hspec
    obtain ⟨_, _, -, ⟨⟨hk, -⟩, -⟩, -⟩ := hspec
    obtain ⟨ts⟩ := t
    rw [Tree.depth_node] at hk
    omega
  | succ k ih =>
    apply ((reads_list n ih).map Tree.node).congr
    intro r t bs
    constructor
    · intro hrun
      obtain ⟨ts, rfl, hl, _, ⟨q, rfl, cs, hcs, rfl⟩, rfl⟩ := hrun
      obtain ⟨hts, rfl⟩ := forall₂_eq_map.1 hcs
      have hk := deepest_map_le.2 fun t ht => (hts t ht).1
      have hq := deepest_map_le.2 fun t ht => (hts t ht).2.2
      rw [Tree.depth_node, Tree.short_node, Tree.wire_node, List.flatMap_def]
      exact ⟨⟨by omega, ⟨hl, fun t ht => (hts t ht).2.1⟩, by omega⟩, rfl⟩
    · intro hspec
      obtain ⟨⟨hk, hs, hr⟩, rfl⟩ := hspec
      obtain ⟨ts⟩ := t
      rw [Tree.depth_node] at hk hr
      rw [Tree.short_node] at hs
      obtain ⟨q, rfl⟩ : ∃ q, r = q + 1 := ⟨r - 1, by omega⟩
      have hk : deepest (ts.map Tree.depth) ≤ k := by omega
      have hq : deepest (ts.map Tree.depth) ≤ q := by omega
      rw [deepest_map_le] at hk hq
      rw [Tree.wire_node, List.flatMap_def]
      refine ⟨ts, rfl, hs.1, _, ⟨q, rfl, _, forall₂_eq_map.2 ⟨fun t ht => ?_, rfl⟩, rfl⟩, rfl⟩
      exact ⟨hk t ht, hs.2 t ht, hq t ht⟩

theorem reads_tree : Reads (tree n.format) fun r t bs =>
    t.Short n.format.maxLength ∧ t.depth ≤ r ∧ bs = t.wire n := by
  intro d t d'
  apply (reads_treeBelow n (d.depth.remaining + 1) d t d').trans
  constructor
  · intro hrun
    obtain ⟨bs, u, hr, ⟨⟨-, hs, hd⟩, hw⟩, rfl⟩ := hrun
    exact ⟨bs, u, hr, ⟨hs, hd, hw⟩, rfl⟩
  · intro hspec
    obtain ⟨bs, u, hr, ⟨hs, hd, hw⟩, rfl⟩ := hspec
    exact ⟨bs, u, hr, ⟨⟨Nat.le_succ_of_le hd, hs, hd⟩, hw⟩, rfl⟩

theorem reads_empty : Reads (pure ()) Grammar.empty :=
  (Reads.pure ()).congr fun _ _ _ => ⟨And.right, fun h => ⟨rfl, h⟩⟩

end Decoder

open Decoder in
/-- Decoding answers what the grammar has at the front of the input, and nothing else. -/
theorem Schema.reads_decode (n : FormatName) (s : Schema) :
    Reads (s.decode n.format) (s.Spells n) := by
  induction s with
  | scalar s => exact reads_read n (.scalar s)
  | option s ih =>
    have hread : ∀ present : Bool,
        Reads (if present then do return some (← s.decode n.format) else return none)
          fun r v bs => (present = true ∧ ∃ x, v = some x ∧ s.Spells n r x bs) ∨
            present = false ∧ v = none ∧ bs = [] := by
      intro present
      cases present with
      | false => exact (Reads.pure none).congr fun r v bs => by simp
      | true => exact (ih.map some).congr fun r v bs => by simp
    apply ((reads_read n .presence).bind hread).congr
    intro r v bs
    constructor
    · intro hrun
      obtain ⟨_, _, cs, ⟨-, rfl⟩, ⟨rfl, x, rfl, hx⟩ | ⟨rfl, rfl, rfl⟩, rfl⟩ := hrun
      · exact ⟨cs, hx, rfl⟩
      · rfl
    · intro h
      cases v with
      | none => exact ⟨false, [0], [], ⟨trivial, rfl⟩, .inr ⟨rfl, rfl, rfl⟩, h⟩
      | some x =>
        obtain ⟨cs, hx, rfl⟩ := h
        exact ⟨true, [1], cs, ⟨trivial, rfl⟩, .inl ⟨rfl, x, rfl, hx⟩, rfl⟩
  | boxed s ih => exact ih
  | pair a b iha ihb =>
    apply (iha.bind fun x => ihb.map (x, ·)).congr
    intro r v bs
    constructor
    · intro hrun
      obtain ⟨x, cs, ds, hx, ⟨y, rfl, hy⟩, rfl⟩ := hrun
      exact ⟨cs, ds, hx, hy, rfl⟩
    · intro hspec
      obtain ⟨cs, ds, hx, hy, rfl⟩ := hspec
      exact ⟨v.1, cs, ds, hx, ⟨v.2, rfl, hy⟩, rfl⟩
  | seq s ih => exact reads_list n ih
  | map it k v ihk ihv => exact (reads_entries n ihk ihv).map _
  | set it k ih =>
    exact (reads_entries n ih reads_empty).map fun es => Entries.keysOfList k.compare (es.map (·.1))
  | framed s ih => exact ih.container
  | choice count alt ih =>
    have hread := fun i => (ih i).map fun x => (⟨i, x⟩ : (choice count alt).Val)
    apply ((reads_readVariant n count).bind hread).congr
    intro r v bs
    constructor
    · intro hrun
      obtain ⟨i, _, cs, ⟨hi, rfl⟩, ⟨x, rfl, hx⟩, rfl⟩ := hrun
      exact ⟨hi, cs, hx, rfl⟩
    · intro hspec
      obtain ⟨hi, cs, hx, rfl⟩ := hspec
      exact ⟨v.1, _, cs, ⟨hi, rfl⟩, ⟨v.2, rfl, hx⟩, rfl⟩
  | tree => exact reads_tree n

theorem Decoder.finish_eq_ok {d : Decoder} : d.finish = .ok () ↔ d.cursor.rest = [] := by
  rw [← List.length_eq_zero_iff, Cursor.length_rest, finish]
  split
  · rename_i h
    exact iff_of_false nofun (Nat.ne_of_gt h)
  · rename_i h
    exact iff_of_true rfl (Nat.eq_zero_of_not_pos h)

theorem Decoder.finish_if_eq_ok {α : Type} {d : Decoder} {b : Bool} {a a' : α} :
    (do
      if b then d.finish
      return a : Except Error α) = .ok a' ↔ a = a' ∧ (b → d.cursor.rest = []) := by
  cases b with
  | false =>
    change Except.ok a = .ok a' ↔ _
    simp
  | true =>
    rw [← finish_eq_ok]
    cases d.finish with
    | ok =>
      change Except.ok a = .ok a' ↔ _
      simp
    | error e =>
      refine iff_of_false nofun ?_
      intro hspec
      obtain ⟨-, h⟩ := hspec
      cases h rfl

theorem Decoder.withConfig_eq_ok {F : Format} {input : Bytes} {c : Config} {d : Decoder} :
    withConfig F input c = .ok d ↔
      c.validate F = .ok () ∧ d = ⟨.start input, .full c.maxContainerDepth⟩ := by
  rw [withConfig, except_bind_eq_ok]
  constructor
  · intro hrun
    obtain ⟨⟨⟩, hc, hd⟩ := hrun
    cases hd
    exact ⟨hc, rfl⟩
  · intro hspec
    obtain ⟨hc, rfl⟩ := hspec
    exact ⟨(), hc, rfl⟩

/-- A whole input is one value, and nothing after it where the settings say so. -/
theorem Schema.ofBytes_eq_ok {n : FormatName} {s : Schema} {c : Config} {v : s.Val} {bs : Bytes} :
    s.ofBytes n.format c bs = .ok v ↔ c.validate n.format = .ok () ∧
      ∃ cs t, bs = cs ++ t ∧ s.Spells n c.maxContainerDepth v cs ∧ (c.rejectTrailing → t = []) := by
  have hread := reads_decode n s ⟨.start bs, .full c.maxContainerDepth⟩
  rw [ofBytes, except_bind_eq_ok]
  constructor
  · intro hrun
    obtain ⟨_, hconf, h⟩ := hrun
    obtain ⟨hc, rfl⟩ := Decoder.withConfig_eq_ok.1 hconf
    split at h
    · rename_i w d hd
      obtain ⟨cs, t, hcs, hw, rfl⟩ := (hread w d).1 hd
      obtain ⟨rfl, ht⟩ := Decoder.finish_if_eq_ok.1 h
      rw [Cursor.rest_advance_append hcs] at ht
      exact ⟨hc, cs, t, hcs, hw, ht⟩
    · cases h
  · intro hspec
    obtain ⟨hc, cs, t, hcs, hv, ht⟩ := hspec
    have hr : (Cursor.start bs).rest = cs ++ t := hcs
    refine ⟨_, Decoder.withConfig_eq_ok.2 ⟨hc, rfl⟩, ?_⟩
    rw [(hread v _).2 ⟨cs, t, hr, hv, rfl⟩]
    apply Decoder.finish_if_eq_ok.2
    rw [Cursor.rest_advance_append hr]
    exact ⟨rfl, ht⟩

end WireCodec
