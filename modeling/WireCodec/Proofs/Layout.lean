import WireCodec.Format.Name
import WireCodec.Primitive
import WireCodec.Proofs.Digits
import WireCodec.Proofs.Runs
import WireCodec.Proofs.Values

/-!
# The layout of values

`Schema.wire` gives the bytes of a value by recursion on the value alone: a
number is its digits in base 256, a text its UTF-8 bytes behind their count, a
list its elements one after the other behind theirs. No buffer, offset or depth
occurs. The entries of a map are byte strings of their own, which `arrange` puts
into the order in which they stand on the wire.
-/
namespace WireCodec

namespace FormatName

/-- The bytes of a count. -/
def lengthBytes : FormatName → Nat → Bytes
  | canonical, k => Uleb128.encode (.ofNat k)
  | fast, k => Bytes.ofNat 8 k

def variantBytes : FormatName → Nat → Bytes
  | canonical, i => Uleb128.encode (.ofNat i)
  | fast, i => Bytes.ofNat 4 i

/-- Ascending as byte strings, or as they come. -/
def arrange : FormatName → List Bytes → List Bytes
  | canonical, es => es.insertionSort fun a b => (compare a b).isLE
  | fast, es => es

theorem arrange_perm (n : FormatName) (es : List Bytes) : (n.arrange es).Perm es := by
  cases n with
  | canonical => exact List.perm_insertionSort _ es
  | fast => exact .refl es

instance : Std.Total fun a b : Bytes => (compare a b).isLE = true :=
  ⟨fun a b => by rw [Std.OrientedOrd.eq_swap (a := b)]; cases compare a b <;> simp⟩
instance : IsTrans Bytes fun a b => (compare a b).isLE = true :=
  ⟨fun _ _ _ => Std.TransOrd.isLE_trans⟩
instance : Std.Antisymm fun a b : Bytes => (compare a b).isLE = true :=
  ⟨fun _ _ h h' => Std.LawfulEqOrd.eq_of_compare (Std.OrientedCmp.isLE_antisymm h h')⟩

theorem arrange_ascending (es : List Bytes) :
    (canonical.arrange es).Pairwise fun a b => (compare a b).isLE :=
  List.pairwise_insertionSort _ es

/-- Entries that have been arranged stay as they are. -/
theorem arrange_arrange (n : FormatName) (es : List Bytes) :
    n.arrange (n.arrange es) = n.arrange es := by
  cases n with
  | canonical => exact (arrange_ascending es).insertionSort_eq
  | fast => rfl

/-- Formats sort as the layout does. -/
theorem sortEntries_eq (n : FormatName) (es : List Bytes) :
    n.format.sortEntries es = n.arrange es := by
  cases n with
  | canonical =>
    have h := List.mergeSort_eq_insertionSort (fun a b : Bytes => (compare a b).isLE = true) es
    simp only [Bool.decide_eq_true] at h
    exact h
  | fast => rfl

/-- A length is written just where it is within the format's limit. -/
theorem encodeLength_eq_ok {n : FormatName} {k : Nat} {bs : Bytes} :
    n.format.encodeLength k = .ok bs ↔ k ≤ n.format.maxLength ∧ bs = n.lengthBytes k := by
  cases n with
  | canonical =>
    simp only [format, Format.canonical, Format.Canonical.encodeLength, lengthBytes]
    split <;> simp_all [eq_comm]
  | fast =>
    simp only [format, Format.fast, Format.Fast.encodeLength, lengthBytes]
    split <;> simp_all [eq_comm]

theorem encodeLength_eq_error {n : FormatName} {k : Nat} {x : Error}
    (h : n.format.encodeLength k = .error x) : x = .lengthOutOfRange k := by
  cases n with
  | canonical =>
    simp only [format, Format.canonical, Format.Canonical.encodeLength] at h
    split at h <;> simp_all
  | fast =>
    simp only [format, Format.fast, Format.Fast.encodeLength] at h
    split at h <;> simp_all

theorem lengthBytes_ne_nil (n : FormatName) (k : Nat) : n.lengthBytes k ≠ [] := by
  cases n with
  | canonical => exact Uleb128.groups_ne_nil _ _
  | fast => exact List.cons_ne_nil _ _

theorem encodeVariantIndex_eq (n : FormatName) (i : UInt32) :
    n.format.encodeVariantIndex i = .ok (n.variantBytes i.toNat) := by
  cases n with
  | canonical => simp [format, Format.canonical, variantBytes]
  | fast => simp [format, Format.fast, variantBytes]

end FormatName

/-- A variant index has 32 bits, and so do its bytes. -/
theorem FormatName.variantBytes_ofNat (n : FormatName) (i : Nat) :
    n.variantBytes (UInt32.ofNat i).toNat = n.variantBytes i := by
  cases n with
  | canonical => rw [variantBytes, UInt32.ofNat_toNat, variantBytes]
  | fast => exact Bytes.ofNat_mod 4 i

namespace Utf8

theorem toNat_lt (c : Char) : c.toNat < 0x110000 := by
  have h := c.valid
  simp only [UInt32.isValidChar, Nat.isValidChar] at h
  change c.val.toNat < 0x110000
  omega

/-- The shortest form of a scalar is the one its text is stored in. -/
theorem encodeChar_eq (c : Char) : encodeChar c = String.utf8EncodeChar c := by
  have hc := toNat_lt c
  have hn : c.toNat = c.val.toNat := rfl
  simp only [encodeChar, String.utf8EncodeChar, ← hn]
  generalize c.toNat = n at hc
  by_cases h₁ : n < 0x80
  · rw [if_pos h₁, if_pos (by omega : n ≤ 0x7f)]
  rw [if_neg h₁, if_neg (by omega : ¬ n ≤ 0x7f)]
  by_cases h₂ : n < 0x800
  · rw [if_pos h₂, if_pos (by omega : n ≤ 0x7ff), Nat.mod_eq_of_lt (by omega : n / 64 < 32)]
    simp only [Nat.add_comm]
  rw [if_neg h₂, if_neg (by omega : ¬ n ≤ 0x7ff)]
  by_cases h₃ : n < 0x10000
  · rw [if_pos h₃, if_pos (by omega : n ≤ 0xffff), Nat.mod_eq_of_lt (by omega : n / 4096 < 16)]
    simp only [Nat.add_comm]
  · rw [if_neg h₃, if_neg (by omega : ¬ n ≤ 0xffff), Nat.mod_eq_of_lt (by omega : n / 262144 < 8)]
    simp only [Nat.add_comm]

/-- The bytes of a text are the ones it is stored as. -/
theorem encode_eq (s : String) : encode s = s.toByteArray.data.toList := by
  have h : encodeChar = String.utf8EncodeChar := funext encodeChar_eq
  rw [encode, h, ← String.utf8Encode_toList, List.utf8Encode, List.toList_data_toByteArray]

end Utf8

namespace Scalar

variable (n : FormatName)

def wire : (s : Scalar) → s.Val → Bytes
  | unit, _ => []
  | bool, (b : Bool) => [if b then 1 else 0]
  | uint w, x => Bytes.ofNat w.bytes (BitVec.toNat x)
  | int w, x => Bytes.ofNat w.bytes (BitVec.toNat x)
  | float p, x => Bytes.ofNat p.width.bytes (BitVec.toNat x)
  | char, c => String.utf8EncodeChar c
  | text, (s : String) =>
      n.lengthBytes s.toByteArray.data.toList.length ++ s.toByteArray.data.toList
  | blob, (bs : Bytes) => n.lengthBytes bs.length ++ bs

theorem writeBlob_eq_ok {bs cs : Bytes} :
    writeBlob n.format bs = .ok cs ↔
      bs.length ≤ n.format.maxLength ∧ cs = n.lengthBytes bs.length ++ bs := by
  rw [writeBlob, except_bind_eq_ok]
  constructor
  · intro hrun
    obtain ⟨ls, hls, h⟩ := hrun
    obtain ⟨hl, rfl⟩ := FormatName.encodeLength_eq_ok.1 hls
    cases h
    exact ⟨hl, rfl⟩
  · intro hspec
    obtain ⟨hl, rfl⟩ := hspec
    exact ⟨_, FormatName.encodeLength_eq_ok.2 ⟨hl, rfl⟩, rfl⟩

theorem writeBlob_eq_error {bs : Bytes} {x : Error} (h : writeBlob n.format bs = .error x) :
    x = .lengthOutOfRange bs.length := by
  rw [writeBlob] at h
  cases hl : n.format.encodeLength bs.length with
  | ok ls =>
    rw [hl] at h
    cases h
  | error y =>
    rw [hl] at h
    cases h
    exact FormatName.encodeLength_eq_error hl

theorem writeText_eq_ok {s : String} {cs : Bytes} :
    writeBlob n.format (Utf8.encode s) = .ok cs ↔ (Utf8.encode s).length ≤ n.format.maxLength ∧
      cs = n.lengthBytes s.toByteArray.data.toList.length ++ s.toByteArray.data.toList := by
  rw [writeBlob_eq_ok, Utf8.encode_eq]

theorem ok_eq_ok {as bs cs : Bytes} (h : as = bs) :
    (.ok as : Except Error Bytes) = .ok cs ↔ True ∧ cs = bs := by
  rw [h, Except.ok.injEq, true_and, eq_comm]

/-- A scalar is written just where it is short enough, and its bytes are its layout. -/
theorem write_eq_ok {s : Scalar} {v : s.Val} {bs : Bytes} :
    s.write n.format v = .ok bs ↔ s.Short n.format.maxLength v ∧ bs = s.wire n v := by
  cases s with
  | unit => exact ok_eq_ok rfl
  | bool => cases v <;> exact ok_eq_ok rfl
  | uint w => exact ok_eq_ok (Width.encode_eq w v)
  | int w => exact ok_eq_ok (Width.encode_eq w v)
  | float p => exact ok_eq_ok (Width.encode_eq p.width v)
  | char => exact ok_eq_ok (Utf8.encodeChar_eq v)
  | text => exact writeText_eq_ok n
  | blob => exact writeBlob_eq_ok n

end Scalar

namespace Primitive

variable (n : FormatName)

def wire : (p : Primitive) → p.Val → Bytes
  | scalar s, v => s.wire n v
  | presence, (b : Bool) => [if b then 1 else 0]
  | length, k => n.lengthBytes k
  | variantIndex, i => n.variantBytes (UInt32.toNat i)

def Short (m : Nat) : (p : Primitive) → p.Val → Prop
  | scalar s, v => s.Short m v
  | length, (k : Nat) => k ≤ m
  | _, _ => True

/-- A primitive is written just where it is short enough, and its bytes are its layout. -/
theorem write_eq_ok {p : Primitive} {v : p.Val} {bs : Bytes} :
    p.write n.format v = .ok bs ↔ p.Short n.format.maxLength v ∧ bs = p.wire n v := by
  cases p with
  | scalar s => exact Scalar.write_eq_ok n
  | presence => cases v <;> exact Scalar.ok_eq_ok rfl
  | length => exact FormatName.encodeLength_eq_ok
  | variantIndex =>
    have h : write n.format variantIndex v = .ok (wire n variantIndex v) :=
      FormatName.encodeVariantIndex_eq n v
    rw [h]
    exact Scalar.ok_eq_ok rfl

/-- Only a length can be impossible to write. -/
theorem write_eq_error {p : Primitive} {v : p.Val} {x : Error}
    (h : p.write n.format v = .error x) : ∃ k, x = .lengthOutOfRange k := by
  cases p with
  | scalar s =>
    cases s with
    | text => exact ⟨_, Scalar.writeBlob_eq_error n h⟩
    | blob => exact ⟨_, Scalar.writeBlob_eq_error n h⟩
    | _ => cases h
  | presence => cases h
  | length => exact ⟨_, FormatName.encodeLength_eq_error h⟩
  | variantIndex =>
    have hok : write n.format variantIndex v = .ok (wire n variantIndex v) :=
      FormatName.encodeVariantIndex_eq n v
    rw [hok] at h
    cases h

end Primitive

mutual

def Tree.wire (n : FormatName) : Tree → Bytes
  | .node ts => n.lengthBytes ts.length ++ Tree.wireAll n ts

def Tree.wireAll (n : FormatName) : List Tree → Bytes
  | [] => []
  | t :: ts => t.wire n ++ Tree.wireAll n ts

end

/-- A tree is laid out as the list of its children. -/
theorem Tree.wire_node (n : FormatName) (ts : List Tree) :
    wire n (.node ts) = n.lengthBytes ts.length ++ ts.flatMap (wire n) := by
  have h : wireAll n ts = ts.flatMap (wire n) := by
    induction ts with
    | nil => rfl
    | cons t ts ih => rw [wireAll, ih, List.flatMap_cons]
  rw [wire, h]

/-- The bytes of a value. -/
def Schema.wire (n : FormatName) : (s : Schema) → s.Val → Bytes
  | scalar s, v => s.wire n v
  | option s, v => match v with
    | none => [0]
    | some x => 1 :: s.wire n x
  | boxed s, v => s.wire n v
  | pair a b, v => a.wire n v.1 ++ b.wire n v.2
  | seq s, (vs : List s.Val) => n.lengthBytes vs.length ++ vs.flatMap (s.wire n)
  | map _ k v, (es : List (k.Val × v.Val)) =>
      n.lengthBytes es.length ++ (n.arrange (es.map fun e => k.wire n e.1 ++ v.wire n e.2)).flatten
  | set _ k, (ks : List k.Val) =>
      n.lengthBytes ks.length ++ (n.arrange (ks.map (k.wire n))).flatten
  | framed s, v => s.wire n v
  | choice _ alt, v => n.variantBytes v.1 ++ (alt v.1).wire n v.2
  | tree, t => t.wire n

end WireCodec
