import WireCodec.Proofs.Canonical

/-!
# Maps as lists

A map has a loop of its own for reading its entries, which holds every key against the key
before it. Apart from these checks it takes the same steps as the loop that reads a list of
pairs. So it either ends as that loop does or stops for the order of two keys, and it comes to
its end just where the list can be read and the bytes of its keys ascend. Keys with ascending
bytes are distinct, hence none of the entries replaces another.
-/
namespace WireCodec

open HasDepth (container)
open Grammar

namespace Decoder

variable {α β : Type}

/-- Reads, and also answers the stretch of input that was read. -/
def spanned (m : Decoding α) : Decoding (α × Bytes) := do
  let start := (← get).offset
  let a ← m
  let d ← get
  return (a, d.cursor.input.extract start d.offset)

def both (key : Decoding α) (value : Decoding β) : Decoding (α × β) := do
  let x ← key
  let y ← value
  return (x, y)

/-- The stretches of input that hold the keys of a list of entries, none if there is no such
list to be read. -/
def keySlices (F : Format) (key : Decoding α) (value : Decoding β) (d : Decoder) : List Bytes :=
  match list F (both (spanned key) value) d with
  | .ok es _ => es.map fun e => e.1.2
  | .error _ _ => []

section Success

variable {n : FormatName} {key : Decoding α} {value : Decoding β} {K : Grammar α} {V : Grammar β}

theorem reads_spanned (hk : Reads key K) :
    Reads (spanned key) fun r a bs => K r a.1 bs ∧ a.2 = bs := by
  intro d a d'
  have hrun : spanned key d = .ok a d' ↔
      ∃ k, key d = .ok k d' ∧ a = (k, d'.cursor.input.extract d.offset d'.offset) := by
    simp only [spanned, bind_eq_ok, get_eq_ok, pure_eq_ok]
    constructor
    · intro hrun
      obtain ⟨_, _, ⟨rfl, rfl⟩, k, d₁, hkd, _, _, ⟨rfl, rfl⟩, rfl, rfl⟩ := hrun
      exact ⟨k, hkd, rfl⟩
    · intro hspec
      obtain ⟨k, hkd, rfl⟩ := hspec
      exact ⟨_, _, ⟨rfl, rfl⟩, k, d', hkd, _, _, ⟨rfl, rfl⟩, rfl, rfl⟩
  rw [hrun]
  constructor
  · intro hspec
    obtain ⟨k, hkd, rfl⟩ := hspec
    obtain ⟨bs, t, hr, hK, rfl⟩ := (hk _ _ _).1 hkd
    exact ⟨bs, t, hr, ⟨hK, Cursor.extract_offset hr⟩, rfl⟩
  · intro hspec
    obtain ⟨bs, t, hr, ⟨hK, hbs⟩, rfl⟩ := hspec
    refine ⟨a.1, (hk _ _ _).2 ⟨bs, t, hr, hK, rfl⟩, Prod.ext rfl ?_⟩
    exact hbs.trans (Cursor.extract_offset hr).symm

theorem reads_both (hk : Reads key K) (hv : Reads value V) :
    Reads (both key value) fun r e bs => ∃ cs ds, K r e.1 cs ∧ V r e.2 ds ∧ bs = cs ++ ds := by
  apply (hk.bind fun x => hv.map (x, ·)).congr
  intro r e bs
  constructor
  · intro hrun
    obtain ⟨x, cs, ds, hx, ⟨y, rfl, hy⟩, rfl⟩ := hrun
    exact ⟨cs, ds, hx, hy, rfl⟩
  · intro hspec
    obtain ⟨cs, ds, hx, hy, rfl⟩ := hspec
    exact ⟨e.1, cs, ds, hx, ⟨e.2, rfl, hy⟩, rfl⟩

/-- Entries one after the other are keys and values in turn. -/
theorem all_both {r : Nat} {es : List (α × β)} {bs : Bytes} :
    all (fun r (e : α × β) bs => ∃ cs ds, K r e.1 cs ∧ V r e.2 ds ∧ bs = cs ++ ds) r es bs ↔
      ∃ cs : List (Bytes × Bytes), List.Forall₂ (fun e c => K r e.1 c.1 ∧ V r e.2 c.2) es cs ∧
        bs = cs.flatMap fun c => c.1 ++ c.2 := by
  constructor
  · intro hall
    obtain ⟨css, hcss, rfl⟩ := hall
    induction hcss with
    | nil => exact ⟨[], .nil, rfl⟩
    | cons he _ ih =>
      obtain ⟨cs, ds, hx, hy, rfl⟩ := he
      obtain ⟨cs', hcs', hflat⟩ := ih
      refine ⟨(cs, ds) :: cs', .cons ⟨hx, hy⟩ hcs', ?_⟩
      rw [List.flatten_cons, hflat, List.flatMap_cons]
  · intro hspec
    obtain ⟨cs, hcs, rfl⟩ := hspec
    refine ⟨cs.map fun c => c.1 ++ c.2, ?_, List.flatMap_def ..⟩
    rw [List.forall₂_map_right_iff]
    exact hcs.imp fun e c he => ⟨c.1, c.2, he.1, he.2, rfl⟩

/-- The list of entries, and where its keys are. -/
theorem list_both_eq_ok (hk : Reads key K) (hv : Reads value V) {d d' : Decoder}
    {es : List (α × β)} : list n.format (both key value) d = .ok es d' ↔
      ∃ (q : Nat) (cs : List (Bytes × Bytes)) (t : Bytes),
        d.depth.remaining = q + 1 ∧ es.length ≤ n.format.maxLength ∧
        List.Forall₂ (fun e c => K q e.1 c.1 ∧ V q e.2 c.2) es cs ∧
        d.cursor.rest = n.lengthBytes es.length ++ (cs.flatMap fun c => c.1 ++ c.2) ++ t ∧
        d' = ⟨d.cursor.advance
          (n.lengthBytes es.length ++ cs.flatMap fun c => c.1 ++ c.2).length, d.depth⟩ := by
  rw [reads_list n (reads_both hk hv)]
  constructor
  · intro hrun
    obtain ⟨_, t, hr, ⟨hl, _, ⟨q, hq, hall⟩, rfl⟩, rfl⟩ := hrun
    obtain ⟨cs, hcs, rfl⟩ := all_both.1 hall
    exact ⟨q, cs, t, hq, hl, hcs, hr, rfl⟩
  · intro hspec
    obtain ⟨q, cs, t, hq, hl, hcs, hr, rfl⟩ := hspec
    exact ⟨_, t, hr, ⟨hl, _, ⟨q, hq, all_both.2 ⟨cs, hcs, rfl⟩⟩, rfl⟩, rfl⟩

theorem keySlices_eq (hk : Reads key K) (hv : Reads value V) {d : Decoder} {es : List (α × β)}
    {q : Nat} {cs : List (Bytes × Bytes)} {t : Bytes} (hq : d.depth.remaining = q + 1)
    (hl : es.length ≤ n.format.maxLength)
    (hcs : List.Forall₂ (fun e c => K q e.1 c.1 ∧ V q e.2 c.2) es cs)
    (hr : d.cursor.rest = n.lengthBytes es.length ++ (cs.flatMap fun c => c.1 ++ c.2) ++ t) :
    keySlices n.format key value d = cs.map Prod.fst := by
  have hspan : ∀ c ∈ cs, ∃ e : (α × Bytes) × β, (K q e.1.1 c.1 ∧ e.1.2 = c.1) ∧ V q e.2 c.2 :=
    forall_of_forall₂ hcs.flip fun c e he => ⟨((e.1, c.1), e.2), ⟨he.1, rfl⟩, he.2⟩
  obtain ⟨fs, hfs⟩ := exists_forall₂ hspan
  have hlen : fs.length = es.length := hfs.length_eq.symm.trans hcs.length_eq.symm
  rw [← hlen] at hl hr
  have hrun := (list_both_eq_ok (reads_spanned hk) hv).2 ⟨q, cs, t, hq, hl, hfs.flip, hr, rfl⟩
  rw [keySlices, hrun]
  exact (map_eq_of_forall₂ hfs fun c e he => he.1.2.symm).symm

/-- A map is read just where the list of its entries is, with keys in the order of the format. -/
theorem entries_eq_ok (hk : Reads key K) (hv : Reads value V) {d d' : Decoder}
    {es : List (α × β)} : entries n.format key value d = .ok es d' ↔
      list n.format (both key value) d = .ok es d' ∧ KeyOrder n (keySlices n.format key value d) := by
  rw [reads_entries n hk hv, list_both_eq_ok hk hv]
  constructor
  · intro hrun
    obtain ⟨_, t, hr, ⟨hl, _, ⟨q, hq, cs, hcs, hkeys, rfl⟩, rfl⟩, rfl⟩ := hrun
    rw [keySlices_eq hk hv hq hl hcs hr]
    exact ⟨⟨q, cs, t, hq, hl, hcs, hr, rfl⟩, hkeys⟩
  · intro hspec
    obtain ⟨⟨q, cs, t, hq, hl, hcs, hr, rfl⟩, hkeys⟩ := hspec
    rw [keySlices_eq hk hv hq hl hcs hr] at hkeys
    exact ⟨_, t, hr, ⟨hl, _, ⟨q, hq, cs, hcs, hkeys, rfl⟩, rfl⟩, rfl⟩

end Success

/-- The first run ends as the second one does, or stops for the order of two keys. -/
def UnlessOrder (n : FormatName) (r r' : EStateM.Result Error Decoder α) : Prop :=
  r = r' ∨ n = .canonical ∧ ∃ d, r = .error .nonCanonicalOrder d

section Runs

variable {n : FormatName} {m m' : Decoding α} {f f' : α → Decoding β} {d : Decoder}

theorem UnlessOrder.bind (h : UnlessOrder n (m d) (m' d))
    (hf : ∀ a e, m d = .ok a e → UnlessOrder n (f a e) (f' a e)) :
    UnlessOrder n ((m >>= f) d) ((m' >>= f') d) := by
  obtain heq | ⟨hn, e, he⟩ := h
  · cases hr : m d with
    | ok a e =>
      rw [bind_of_ok hr, bind_of_ok (heq ▸ hr)]
      exact hf a e hr
    | error x e => exact .inl ((bind_of_error hr).trans (bind_of_error (heq ▸ hr)).symm)
  · exact .inr ⟨hn, e, bind_of_error he⟩

theorem UnlessOrder.container (h : ∀ e, UnlessOrder n (m e) (m' e)) :
    UnlessOrder n (container m d) (container m' d) := by
  by_cases hr : d.depth.remaining = 0
  · refine .inl ?_
    rw [HasDepth.container_of_exhausted (s := d) hr, HasDepth.container_of_exhausted (s := d) hr]
  · have hb := DepthBudget.enter_pos hr
    rw [HasDepth.container_of_enter (s := d) hb, HasDepth.container_of_enter (s := d) hb]
    obtain heq | ⟨hn, e, he⟩ := h (HasDepth.setBudget d _)
    · exact .inl (by rw [heq])
    · exact .inr ⟨hn, _, by rw [he]⟩

variable {key : Decoding α} {value : Decoding β} {K : Grammar α} {V : Grammar β}

theorem both_bind {γ : Type} (f : α × β → Decoding γ) : (both key value >>= f) =
    key >>= fun x => value >>= fun y => f (x, y) := by
  simp only [both, bind_assoc, pure_bind]

/-- Between one key and the next the two loops take the same steps. -/
theorem eachEntry_unlessOrder (hk : Reads key K) (hv : Reads value V) (m : Nat)
    {before : Option (Nat × Nat)} (hb : ∀ p ∈ before, p.1 ≤ p.2 ∧ p.2 ≤ d.offset) :
    UnlessOrder n (eachEntry n.format key value before m d) (each (both key value) m d) := by
  induction m generalizing before d with
  | zero => exact .inl rfl
  | succ m ih =>
    -- the key before lies in what has been read, and so it does one entry further on
    simp only [eachEntry, each, both_bind, get_bind_run]
    refine UnlessOrder.bind (.inl rfl) fun k e hkd => ?_
    have hl := offset_le_of_ok hk hkd
    have hb₁ : ∀ p ∈ before, p.1 ≤ p.2 ∧ p.2 ≤ e.offset :=
      fun p hp => ⟨(hb p hp).1, Nat.le_trans (hb p hp).2 hl⟩
    simp only [get_bind_run]
    obtain ⟨hc, -⟩ | ⟨hc, -, hn⟩ := checkAfter_cases n hb₁ hl (Nat.le_refl _)
    · rw [bind_of_ok hc]
      refine UnlessOrder.bind (.inl rfl) fun v e' hvd => ?_
      refine UnlessOrder.bind (ih fun p hp => ?_) fun _ _ _ => .inl rfl
      cases hp
      exact ⟨hl, offset_le_of_ok hv hvd⟩
    · exact .inr ⟨hn, e, bind_of_error hc⟩

theorem entries_unlessOrder (hk : Reads key K) (hv : Reads value V) (d : Decoder) :
    UnlessOrder n (entries n.format key value d) (list n.format (both key value) d) :=
  UnlessOrder.bind (.inl rfl) fun m e _ => .container fun e' => eachEntry_unlessOrder hk hv m (by simp)

end Runs

/-- A list is as long as was announced. -/
theorem length_of_list {n : FormatName} {f : Decoding α} {P : Grammar α} (hf : Reads f P)
    {d d' : Decoder} {as : List α} (h : list n.format f d = .ok as d') :
    ∃ d₁, read n.format .length d = .ok as.length d₁ := by
  obtain ⟨k, d₁, hk, hbody⟩ := bind_eq_ok.1 h
  obtain ⟨b, u, -, has, -⟩ := container_run.1 hbody
  obtain ⟨_, _, -, ⟨rfl, -⟩, -⟩ := (reads_each hf k _ _ _).1 has
  exact ⟨d₁, hk⟩

theorem each_map (f : Decoding α) (g : α → β) (k : Nat) :
    each (do return g (← f)) k = do return (← each f k).map g := by
  induction k with
  | zero => rfl
  | succ k ih => simp only [each, ih, bind_assoc, pure_bind, List.map_cons]

theorem container_map (m : Decoding α) (g : α → β) :
    container (do return g (← m)) = do return g (← container m) := by
  funext d
  by_cases hr : d.depth.remaining = 0
  · exact (HasDepth.container_of_exhausted (s := d) hr _).trans
      (bind_of_error (HasDepth.container_of_exhausted (s := d) hr _)).symm
  · have hb := DepthBudget.enter_pos hr
    cases hm : m (HasDepth.setBudget d ⟨d.depth.max, d.depth.remaining - 1, _⟩) with
    | ok a e =>
      have hrun : container m d = .ok a (HasDepth.close e) := by
        rw [HasDepth.container_of_enter (s := d) hb, hm]
      rw [bind_of_ok hrun, HasDepth.container_of_enter (s := d) hb, bind_of_ok hm]
      rfl
    | error x e =>
      have hrun : container m d = .error x (HasDepth.close e) := by
        rw [HasDepth.container_of_enter (s := d) hb, hm]
      rw [bind_of_error hrun, HasDepth.container_of_enter (s := d) hb, bind_of_error hm]

theorem list_map (n : FormatName) (f : Decoding α) (g : α → β) :
    list n.format (do return g (← f)) = do return (← list n.format f).map g := by
  rw [list, list, bind_assoc]
  refine congrArg _ (funext fun k : Nat => ?_)
  rw [each_map, container_map]

/-- Elements with nothing beside them. -/
theorem list_both_unit (n : FormatName) (key : Decoding α) :
    list n.format (both key (pure ())) = do return (← list n.format key).map (·, ()) := by
  simp only [both, pure_bind]
  exact list_map n key (·, ())

/-- How a map or set that keeps to an order of its keys is read, against the list of its entries. -/
structure ReadsInOrder {κ : Type} (F : Format) (coll list : Decoding (List α)) (key : α → κ)
    (slices : Decoder → List Bytes) : Prop where
  /-- It can be read just where the list can, with keys that ascend strictly as bytes. -/
  ends : ∀ d d', (∃ m, coll d = .ok m d') ↔
    (∃ es, list d = .ok es d') ∧ (slices d).IsChain fun a b => compare a b = .lt
  /-- Its entries are those of the list, as many as were announced, under distinct keys. -/
  content : ∀ d m d', coll d = .ok m d' → ∃ es, list d = .ok es d' ∧ m.Perm es ∧
    (es.map key).Nodup ∧ ∃ d₁, read F .length d = .ok (m.length : Nat) d₁
  fails : ∀ d x d', coll d = .error x d' → x ≠ .nonCanonicalOrder → list d = .error x d'

/-- How a map or set without an order of its keys is read, against the list of its entries. -/
structure ReadsLast {κ : Type} (coll list : Decoding (List α)) (key : α → κ) : Prop where
  ends : ∀ d d', (∃ m, coll d = .ok m d') ↔ ∃ es, list d = .ok es d'
  /-- Its entries are the last ones of the list under their keys. -/
  content : ∀ d m d', coll d = .ok m d' → ∃ es, list d = .ok es d' ∧ (m.map key).Nodup ∧
    ∀ e, e ∈ m ↔ ∃ xs ys, es = xs ++ e :: ys ∧ ∀ f ∈ ys, key f ≠ key e
  fails : ∀ d x d', coll d = .error x d' ↔ list d = .error x d'

section Units

variable {n : FormatName} {coll : Decoding (List (α × Unit))} {key : Decoding α}
  {slices : Decoder → List Bytes}

theorem map_fst_unit (xs : List α) : (xs.map (·, ())).map Prod.fst = xs := by
  rw [List.map_map]
  exact List.map_id xs

/-- A set is a map to the unit. -/
theorem ReadsInOrder.of_unit
    (h : ReadsInOrder n.format coll (list n.format (both key (pure ()))) Prod.fst slices) :
    ReadsInOrder n.format (do return (← coll).map Prod.fst) (list n.format key) id slices := by
  rw [list_both_unit] at h
  constructor
  · intro d d'
    rw [exists_map_eq_ok, h.ends, exists_map_eq_ok]
  · intro d m d' hm
    obtain ⟨es, hes, rfl⟩ := map_eq_ok.1 hm
    obtain ⟨fs, hfs, hperm, hnodup, hlen⟩ := h.content d es d' hes
    obtain ⟨xs, hxs, rfl⟩ := map_eq_ok.1 hfs
    rw [map_fst_unit] at hnodup
    have hfst := hperm.map Prod.fst
    rw [map_fst_unit] at hfst
    refine ⟨xs, hxs, hfst, ?_, ?_⟩
    · rwa [List.map_id]
    · rwa [List.length_map]
  · intro d x d' hd hx
    exact map_eq_error.1 (h.fails d x d' (map_eq_error.1 hd) hx)

theorem last_unit {xs : List α} {a : α} :
    (∃ ys zs, xs.map (·, ()) = ys ++ (a, ()) :: zs ∧ ∀ f ∈ zs, f.1 ≠ a) ↔
      ∃ ys zs, xs = ys ++ a :: zs ∧ ∀ b ∈ zs, b ≠ a := by
  constructor
  · intro hspec
    obtain ⟨ys, zs, h, hzs⟩ := hspec
    have hxs := congrArg (List.map Prod.fst) h
    rw [map_fst_unit, List.map_append, List.map_cons] at hxs
    exact ⟨_, _, hxs, List.forall_mem_map.2 hzs⟩
  · intro hspec
    obtain ⟨ys, zs, rfl, hzs⟩ := hspec
    refine ⟨ys.map (·, ()), zs.map (·, ()), ?_, List.forall_mem_map.2 hzs⟩
    rw [List.map_append, List.map_cons]

theorem ReadsLast.of_unit (h : ReadsLast coll (list n.format (both key (pure ()))) Prod.fst) :
    ReadsLast (do return (← coll).map Prod.fst) (list n.format key) id := by
  rw [list_both_unit] at h
  constructor
  · intro d d'
    rw [exists_map_eq_ok, h.ends, exists_map_eq_ok]
  · intro d m d' hm
    obtain ⟨es, hes, rfl⟩ := map_eq_ok.1 hm
    obtain ⟨fs, hfs, hnodup, hmem⟩ := h.content d es d' hes
    obtain ⟨xs, hxs, rfl⟩ := map_eq_ok.1 hfs
    refine ⟨xs, hxs, by rwa [List.map_id], fun a => ?_⟩
    refine Iff.trans ?_ ((hmem (a, ())).trans last_unit)
    rw [List.mem_map]
    constructor
    · intro hspec
      obtain ⟨e, he, rfl⟩ := hspec
      exact he
    · intro he
      exact ⟨_, he, rfl⟩
  · intro d x d'
    exact map_eq_error.trans ((h.fails d x d').trans map_eq_error)

end Units

end Decoder

namespace Schema

open Decoder

variable (it : Iteration) (k v : Schema)

theorem map_decode_eq_ok {n : FormatName} {d d' : Decoder} {m : List (k.Val × v.Val)} :
    (map it k v).decode n.format d = .ok m d' ↔
      ∃ es, (seq (pair k v)).decode n.format d = .ok es d' ∧
        KeyOrder n (keySlices n.format (k.decode n.format) (v.decode n.format) d) ∧
        Entries.ofList k.compare es = m := by
  refine map_eq_ok.trans (exists_congr fun es => ?_)
  rw [entries_eq_ok (k.reads_decode n) (v.reads_decode n), and_assoc]
  rfl

theorem map_decode_unlessOrder (n : FormatName) (d : Decoder) :
    UnlessOrder n ((map it k v).decode n.format d)
      ((do return Entries.ofList k.compare (← (seq (pair k v)).decode n.format)) d) :=
  (entries_unlessOrder (k.reads_decode n) (v.reads_decode n) d).bind fun _ _ _ => .inl rfl

/-- Keys whose bytes ascend are distinct, so that none of the entries replaces another. -/
theorem perm_of_keySlices {d d' : Decoder} {es : List (k.Val × v.Val)}
    (hes : (seq (pair k v)).decode FormatName.canonical.format d = .ok es d')
    (ho : KeyOrder .canonical (keySlices FormatName.canonical.format
      (k.decode FormatName.canonical.format) (v.decode FormatName.canonical.format) d)) :
    (Entries.ofList k.compare es).Perm es ∧ (es.map Prod.fst).Nodup := by
  have hk := k.reads_decode .canonical
  have hv := v.reads_decode .canonical
  obtain ⟨q, cs, t, hq, hl, hcs, hr, -⟩ := (list_both_eq_ok hk hv).1 hes
  -- a key has one byte string only, so that keys are equal where their bytes are
  have hwire : es.map (fun e => k.wire .canonical e.1) = cs.map Prod.fst :=
    map_eq_of_forall₂ hcs fun e c he => (faithful_of_spells he.1).wire.symm
  rw [keySlices_eq hk hv hq hl hcs hr, ← hwire] at ho
  refine ⟨ofList_keyOrder (totalOrder_compare k) ho, List.pairwise_map.2 ?_⟩
  refine (List.pairwise_map.1 (keyOrder_canonical.1 ho)).imp fun hlt heq => ?_
  rw [heq, Std.ReflOrd.compare_self] at hlt
  cases hlt

theorem map_readsInOrder :
    ReadsInOrder FormatName.canonical.format ((map it k v).decode FormatName.canonical.format)
      ((seq (pair k v)).decode FormatName.canonical.format) Prod.fst
      (keySlices FormatName.canonical.format (k.decode FormatName.canonical.format)
        (v.decode FormatName.canonical.format)) := by
  constructor
  · intro d d'
    rw [← keyOrder_canonical_isChain]
    constructor
    · intro hspec
      obtain ⟨m, hm⟩ := hspec
      obtain ⟨es, hes, ho, -⟩ := (map_decode_eq_ok it k v).1 hm
      exact ⟨⟨es, hes⟩, ho⟩
    · intro hspec
      obtain ⟨⟨es, hes⟩, ho⟩ := hspec
      exact ⟨_, (map_decode_eq_ok it k v).2 ⟨es, hes, ho, rfl⟩⟩
  · intro d m d' hm
    obtain ⟨es, hes, ho, rfl⟩ := (map_decode_eq_ok it k v).1 hm
    obtain ⟨hperm, hnodup⟩ := perm_of_keySlices k v hes ho
    refine ⟨es, hes, hperm, hnodup, ?_⟩
    rw [hperm.length_eq]
    exact length_of_list (reads_both (k.reads_decode .canonical) (v.reads_decode .canonical)) hes
  · intro d x d' hd hx
    obtain heq | ⟨-, e, he⟩ := map_decode_unlessOrder it k v .canonical d
    · rw [heq] at hd
      exact map_eq_error.1 hd
    · rw [he] at hd
      cases hd
      exact absurd rfl hx

theorem map_readsLast :
    ReadsLast ((map it k v).decode FormatName.fast.format)
      ((seq (pair k v)).decode FormatName.fast.format) Prod.fst := by
  have hrun : ∀ d, (map it k v).decode FormatName.fast.format d =
      (do return Entries.ofList k.compare (← (seq (pair k v)).decode FormatName.fast.format)) d := by
    intro d
    obtain heq | ⟨hn, -⟩ := map_decode_unlessOrder it k v .fast d
    · exact heq
    · cases hn
  have ht := totalOrder_compare k
  constructor
  · intro d d'
    simp only [hrun]
    exact exists_map_eq_ok
  · intro d m d' hm
    rw [hrun] at hm
    obtain ⟨es, hes, rfl⟩ := map_eq_ok.1 hm
    refine ⟨es, hes, List.pairwise_map.2 ?_, fun e => Entries.mem_ofList ht⟩
    refine (Entries.ofList_ascending ht es).imp fun hlt heq => ?_
    rw [heq, ht.compare_self] at hlt
    cases hlt
  · intro d x d'
    rw [hrun]
    exact map_eq_error

theorem set_decode_eq (n : FormatName) : (set it k).decode n.format =
    do return ((← (setEntries it k).decode n.format) : List (k.Val × Unit)).map Prod.fst := by
  change (do
      let es ← entries n.format (k.decode n.format) (pure ())
      return Entries.keysOfList k.compare (es.map Prod.fst)) =
    (do return Entries.ofList k.compare (← entries n.format (k.decode n.format) (pure ()))) >>=
      fun es => pure (es.map Prod.fst)
  simp only [bind_assoc, pure_bind, Entries.keysOfList_map_fst]

theorem set_readsInOrder :
    ReadsInOrder FormatName.canonical.format ((set it k).decode FormatName.canonical.format)
      ((seq k).decode FormatName.canonical.format) id
      (keySlices FormatName.canonical.format (k.decode FormatName.canonical.format) (pure ())) := by
  rw [set_decode_eq]
  exact ReadsInOrder.of_unit (map_readsInOrder it k (scalar .unit))

theorem set_readsLast :
    ReadsLast ((set it k).decode FormatName.fast.format) ((seq k).decode FormatName.fast.format)
      id := by
  rw [set_decode_eq]
  exact ReadsLast.of_unit (map_readsLast it k (scalar .unit))

/-- A map is read as the list of its entries and a set as the list of its elements, apart from
the order of keys. The canonical format adds that the keys must ascend as bytes, and fails
otherwise in no other way than the list does; the fast format adds nothing, and the last entry
under a key counts. -/
theorem decode_map_as_list :
    (ReadsInOrder .canonical ((map it k v).decode .canonical) ((seq (pair k v)).decode .canonical)
        Prod.fst (keySlices .canonical (k.decode .canonical) (v.decode .canonical)) ∧
      ReadsLast ((map it k v).decode .fast) ((seq (pair k v)).decode .fast) Prod.fst) ∧
    ReadsInOrder .canonical ((set it k).decode .canonical) ((seq k).decode .canonical) id
        (keySlices .canonical (k.decode .canonical) (pure ())) ∧
      ReadsLast ((set it k).decode .fast) ((seq k).decode .fast) id :=
  ⟨⟨map_readsInOrder it k v, map_readsLast it k v⟩, set_readsInOrder it k, set_readsLast it k⟩

theorem decode_map_as_list_bytes :
    (¬ ∃ m, (set .ascending (scalar (.uint .w8))).decode .canonical ⟨⟨[7, 2, 5, 5], 1⟩, .full 1⟩ =
      .ok m ⟨⟨[7, 2, 5, 5], 4⟩, .full 1⟩) ∧
    (∃ es, (seq (pair (scalar (.uint .w8)) (scalar .bool))).decode .canonical
        ⟨⟨[7, 2, 4, 1, 5, 0], 1⟩, .full 1⟩ = .ok es ⟨⟨[7, 2, 4, 1, 5, 0], 6⟩, .full 1⟩ ∧
      List.Perm [(4#8, true), (5#8, false)] es) ∧
    ∃ es, (seq (pair (scalar (.uint .w8)) (scalar .bool))).decode .fast
        ⟨⟨[2, 0, 0, 0, 0, 0, 0, 0, 5, 1, 5, 0], 0⟩, .full 1⟩ =
          .ok es ⟨⟨[2, 0, 0, 0, 0, 0, 0, 0, 5, 1, 5, 0], 12⟩, .full 1⟩ ∧
      ∃ xs ys, es = xs ++ (5#8, false) :: ys ∧ ∀ f ∈ ys, f.1 ≠ 5#8 := by
  have h := decode_map_as_list .ascending (scalar (.uint .w8)) (scalar .bool)
  refine ⟨fun hm => ?_, ?_, ?_⟩
  · have ho := ((h.2.1.ends _ _).1 hm).2
    have hs : keySlices .canonical ((scalar (.uint .w8)).decode .canonical) (pure ())
        ⟨⟨[7, 2, 5, 5], 1⟩, .full 1⟩ = [[5], [5]] := by cbv
    rw [hs, List.isChain_pair] at ho
    exact absurd ho (by decide)
  · obtain ⟨es, hes, hperm, -⟩ := h.1.1.content ⟨⟨[7, 2, 4, 1, 5, 0], 1⟩, .full 1⟩
      [(4#8, true), (5#8, false)] ⟨⟨[7, 2, 4, 1, 5, 0], 6⟩, .full 1⟩ (by cbv)
    exact ⟨es, hes, hperm⟩
  · obtain ⟨es, hes, -, hlast⟩ := h.1.2.content
      ⟨⟨[2, 0, 0, 0, 0, 0, 0, 0, 5, 1, 5, 0], 0⟩, .full 1⟩ [(5#8, false)]
      ⟨⟨[2, 0, 0, 0, 0, 0, 0, 0, 5, 1, 5, 0], 12⟩, .full 1⟩ (by cbv)
    exact ⟨es, hes, (hlast (5#8, false)).1 List.mem_cons_self⟩

end Schema

end WireCodec
