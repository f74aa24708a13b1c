import WireCodec.Proofs.Contract
import WireCodec.Proofs.Decoding
import WireCodec.Proofs.DepthNeed
import WireCodec.Schema.Drawing

/-!
# Blobs, texts and lists of bytes

A blob is a length and so many bytes, written and read at once. A list of bytes is written and read
byte by byte inside a container, and finds out that bytes are missing only where the input ends.
Where there is depth for the container, the two write the same, read the same from the same places,
and fail alike. A text is the blob of its UTF-8.
-/
namespace WireCodec

/-- Failures of one kind, whatever they tell beside it. -/
def Error.SameKind (x y : Error) : Prop := x.ctorIdx = y.ctorIdx

namespace Schema

def byte : Schema := scalar (.uint .w8)

/-- A byte as the number that it is. -/
def byteVal : UInt8 ≃ byte.Val where
  toFun x := x.toBitVec
  invFun v := UInt8.ofBitVec v
  left_inv _ := rfl
  right_inv _ := rfl

theorem ofNat_byteVal (x : UInt8) :
    Bytes.ofNat Width.w8.bytes (BitVec.toNat (byteVal x)) = [x] := by
  change [UInt8.ofNat x.toNat] = [x]
  rw [UInt8.ofNat_toNat]

end Schema

open Schema (byte byteVal blob text seq)

namespace Encoder

variable (F : Format)

theorem write_byte (x : UInt8) (e : Encoder) :
    byte.encode F (byteVal x) e = .ok () ⟨e.buffer ++ [x], e.depth⟩ := by
  rw [← Schema.ofNat_byteVal x]
  rfl

theorem each_byte (bs : Bytes) (e : Encoder) :
    each (byte.encode F) (bs.map byteVal) e = .ok () ⟨e.buffer ++ bs, e.depth⟩ := by
  induction bs generalizing e with
  | nil =>
    rw [List.append_nil]
    rfl
  | cons x bs ih =>
    rw [List.map_cons, each, bind_of_ok (write_byte F x e), ih, List.append_assoc,
      List.singleton_append]

/-- The container is opened and closed around bytes that do not fail, so only the length matters. -/
theorem list_byte (bs : Bytes) {e : Encoder} (he : 0 < e.depth.remaining) :
    list F (byte.encode F) (bs.map byteVal) e = write F (.scalar .blob) bs e := by
  obtain ⟨q, hq⟩ : ∃ q, e.depth.enter = .ok q := ⟨_, DepthBudget.enter_pos (Nat.ne_of_gt he)⟩
  rw [list, List.length_map]
  cases hlen : F.encodeLength bs.length with
  | error x =>
    have hw : write F .length bs.length e = .error x e := by
      simp only [write, Primitive.write, hlen]
      rfl
    rw [bind_of_error hw]
    simp only [write, Primitive.write, Scalar.write, Scalar.writeBlob, hlen]
    rfl
  | ok ls =>
    have hw : write F .length bs.length e = .ok () ⟨e.buffer ++ ls, e.depth⟩ := by
      simp only [write, Primitive.write, hlen]
      rfl
    have hbody := each_byte F bs ⟨e.buffer ++ ls, q⟩
    rw [List.append_assoc] at hbody
    rw [bind_of_ok hw]
    refine (Frame.container_of_ok (F := frame) (i := e.buffer) (p := ls) hq hbody).trans ?_
    simp only [write, Primitive.write, Scalar.write, Scalar.writeBlob, hlen]
    rfl

end Encoder

namespace Decoder

variable (F : Format) {c : Cursor} (b : DepthBudget)

theorem read_byte {x : UInt8} {t : Bytes} (h : c.rest = x :: t) :
    byte.decode F ⟨c, b⟩ = .ok (byteVal x) ⟨c.advance 1, b⟩ := by
  have hread := Scalar.takes_readNumber (w := .w8) (byteVal x) c t
  rw [Schema.ofNat_byteVal] at hread
  exact reading_of_ok b (hread h)

theorem read_byte_nil (h : c.rest = []) :
    byte.decode F ⟨c, b⟩ = .error (.truncated c.offset 1 0) ⟨c, b⟩ := by
  have hread : Scalar.readNumber .w8 c = .error (.truncated c.offset 1 0) c := by
    have hrem : c.remaining = 0 := by rw [← Cursor.length_rest, h, List.length_nil]
    have htake : Cursor.take 1 c = .error (.truncated c.offset 1 0) c := by
      rw [Cursor.take, hrem]
      rfl
    exact bind_of_error htake
  exact reading_of_error b hread

theorem each_byte {bs t : Bytes} (h : c.rest = bs ++ t) :
    each (byte.decode F) bs.length ⟨c, b⟩ = .ok (bs.map byteVal) ⟨c.advance bs.length, b⟩ := by
  induction bs generalizing c with
  | nil => rfl
  | cons x bs ih =>
    have hrest : (c.advance 1).rest = bs ++ t := by rw [Cursor.rest_advance, h]; rfl
    rw [List.length_cons, each, bind_of_ok (read_byte F b h), bind_of_ok (ih hrest),
      Cursor.advance_advance, Nat.add_comm 1]
    rfl

/-- Past the last byte a list finds that the next one is missing. -/
theorem each_byte_short {k : Nat} (h : c.rest.length < k) : each (byte.decode F) k ⟨c, b⟩ =
    .error (.truncated (c.offset + c.rest.length) 1 0) ⟨c.advance c.rest.length, b⟩ := by
  induction k generalizing c with
  | zero => exact absurd h (Nat.not_lt_zero _)
  | succ k ih =>
    rw [each]
    cases hr : c.rest with
    | nil => exact bind_of_error (read_byte_nil F b hr)
    | cons x t =>
      have hrest : (c.advance 1).rest = t := by rw [Cursor.rest_advance, hr]; rfl
      rw [hr] at h
      have hshort := @ih (c.advance 1) (by rw [hrest]; exact Nat.lt_of_succ_lt_succ h)
      rw [bind_of_ok (read_byte F b hr), bind_of_error hshort, hrest, Cursor.advance_advance,
        Cursor.offset_advance, List.length_cons, Nat.add_assoc, Nat.add_comm 1]

/-- How a blob and a list of bytes end that are read from the same place. -/
inductive EndAlike : EStateM.Result Error Decoder Bytes →
    EStateM.Result Error Decoder (List byte.Val) → Prop
  | ok (bs : Bytes) (d : Decoder) : EndAlike (.ok bs d) (.ok (bs.map byteVal) d)
  | error {x y : Error} (d d' : Decoder) (h : x.SameKind y) : EndAlike (.error x d) (.error y d')

section EndAlike

variable {m : EStateM.Result Error Decoder Bytes} {l : EStateM.Result Error Decoder (List byte.Val)}

theorem EndAlike.ok_iff (h : EndAlike m l) (bs : Bytes) (d : Decoder) :
    m = .ok bs d ↔ l = .ok (bs.map byteVal) d := by
  cases h with
  | ok bs' d' =>
    rw [EStateM.Result.ok.injEq, EStateM.Result.ok.injEq,
      (List.map_injective_iff.2 byteVal.injective).eq_iff]
  | error d₁ d₂ h => exact iff_of_false (fun h => by cases h) fun h => by cases h

theorem EndAlike.error_of_blob (h : EndAlike m l) {x : Error} {d : Decoder} (hm : m = .error x d) :
    ∃ y d', l = .error y d' ∧ x.SameKind y := by
  cases h with
  | ok bs d' => cases hm
  | error d₁ d₂ h =>
    cases hm
    exact ⟨_, d₂, rfl, h⟩

theorem EndAlike.error_of_list (h : EndAlike m l) {y : Error} {d : Decoder} (hl : l = .error y d) :
    ∃ x d', m = .error x d' ∧ x.SameKind y := by
  cases h with
  | ok bs d' => cases hl
  | error d₁ d₂ h =>
    cases hl
    exact ⟨_, d₁, rfl, h⟩

end EndAlike

theorem blob_endAlike {d : Decoder} (hd : 0 < d.depth.remaining) :
    EndAlike (read F (.scalar .blob) d) (list F (byte.decode F) d) := by
  obtain ⟨c, b⟩ := d
  obtain ⟨q, hq⟩ : ∃ q, b.enter = .ok q := ⟨_, DepthBudget.enter_pos (Nat.ne_of_gt hd)⟩
  cases hlen : F.readLength c with
  | error x c' =>
    have hread : read F .length ⟨c, b⟩ = .error x ⟨c', b⟩ := reading_of_error b hlen
    have hblob : Scalar.readBlob F c = .error x c' := bind_of_error hlen
    have hrun : read F (.scalar .blob) ⟨c, b⟩ = .error x ⟨c', b⟩ := reading_of_error b hblob
    rw [list, bind_of_error hread, hrun]
    exact .error _ _ rfl
  | ok k c' =>
    have hread : read F .length ⟨c, b⟩ = .ok (k : Nat) ⟨c', b⟩ := reading_of_ok b hlen
    have hblob : Scalar.readBlob F c = Cursor.take k c' := bind_of_ok hlen
    rw [list, bind_of_ok hread]
    by_cases hk : k ≤ c'.rest.length
    · -- the bytes stand at the front of what is left
      have hbs : c'.rest = c'.rest.take k ++ c'.rest.drop k := (List.take_append_drop k _).symm
      have htake : Cursor.take k c' = .ok (c'.rest.take k) (c'.advance k) := by
        rw [Cursor.length_rest] at hk
        exact if_pos hk
      have hbody := each_byte F q hbs
      rw [List.length_take_of_le hk] at hbody
      have hrun : read F (.scalar .blob) ⟨c, b⟩ = .ok (c'.rest.take k) ⟨c'.advance k, b⟩ :=
        reading_of_ok b (hblob.trans htake)
      have hlist : HasDepth.container (each (byte.decode F) k) ⟨c', b⟩ =
          .ok ((c'.rest.take k).map byteVal) ⟨c'.advance k, b⟩ :=
        Frame.container_of_ok (F := frame) (i := ()) (p := c') hq hbody
      rw [hrun, hlist]
      exact .ok _ _
    · have htake : Cursor.take k c' = .error (.truncated c'.offset k c'.remaining) c' := by
        rw [Cursor.length_rest] at hk
        exact if_neg hk
      have hbody := each_byte_short F q (Nat.lt_of_not_le hk)
      have hrun : read F (.scalar .blob) ⟨c, b⟩ =
          .error (.truncated c'.offset k c'.remaining) ⟨c', b⟩ :=
        reading_of_error b (hblob.trans htake)
      have hlist : HasDepth.container (each (byte.decode F) k) ⟨c', b⟩ =
          .error (.truncated (c'.offset + c'.rest.length) 1 0)
            ⟨c'.advance c'.rest.length, b⟩ :=
        Frame.container_of_error (F := frame) (i := ()) (p := c') hq hbody
      rw [hrun, hlist]
      exact .error _ _ rfl

end Decoder

/-- A text is read where the blob of its UTF-8 is. -/
theorem Scalar.readText_eq_ok {F : Format} {c c' : Cursor} {s : String} :
    readText F c = .ok s c' ↔ readBlob F c = .ok (Utf8.encode s) c' := by
  rw [readText, readBlob, bind_eq_ok, bind_eq_ok]
  refine exists₂_congr fun k c₁ => and_congr_right fun _ => ?_
  rw [get_bind_run]
  cases htake : Cursor.take k c₁ with
  | error x c₂ =>
    rw [bind_of_error htake]
    exact iff_of_false (fun h => by cases h) fun h => by cases h
  | ok bs c₂ =>
    rw [bind_of_ok htake, EStateM.Result.ok.injEq, ← Utf8.decode_eq_ok]
    cases Utf8.decode bs with
    | ok t => rw [pure_eq_ok, Except.ok.injEq]
    | error e => exact iff_of_false (fun h => by cases h) fun h => by cases h.1

theorem Decoder.text_eq_ok (F : Format) (s : String) (d d' : Decoder) :
    text.decode F d = .ok s d' ↔ blob.decode F d = .ok (Utf8.encode s) d' := by
  have htext : text.decode F d = .ok s d' ↔
      Scalar.readText F d.cursor = .ok s d'.cursor ∧ d'.depth = d.depth := reading_eq_ok
  have hblob : blob.decode F d = .ok (Utf8.encode s) d' ↔
      Scalar.readBlob F d.cursor = .ok (Utf8.encode s) d'.cursor ∧ d'.depth = d.depth :=
    reading_eq_ok
  rw [htext, hblob, Scalar.readText_eq_ok]

namespace FormatName

/-- The bytes behind their length, if there are not too many of them. -/
theorem blob_encode_cases (n : FormatName) (bs : Bytes) (e : Encoder) :
    (bs.length ≤ n.format.maxLength ∧ blob.encode n.format bs e =
      .ok () ⟨e.buffer ++ (n.lengthBytes bs.length ++ bs), e.depth⟩) ∨
    (n.format.maxLength < bs.length ∧
      blob.encode n.format bs e = .error (.lengthOutOfRange bs.length) e) := by
  rcases Nat.lt_or_ge n.format.maxLength bs.length with hlt | hle
  · refine .inr ⟨hlt, ?_⟩
    simp only [blob, Schema.encode, Encoder.write, Primitive.write, Scalar.write, Scalar.writeBlob,
      n.encodeLength_of_lt hlt]
    rfl
  · refine .inl ⟨hle, ?_⟩
    simp only [blob, Schema.encode, Encoder.write, Primitive.write, Scalar.write, Scalar.writeBlob,
      encodeLength_eq_ok.2 ⟨hle, rfl⟩]
    rfl

/-- With depth for one container, a blob, the list of its bytes and the text that they spell are
written alike, and each is read just where the others are. -/
theorem blobs_interchangeable (n : FormatName) :
    (∀ (bs : Bytes) (e : Encoder), 0 < e.depth.remaining →
      (seq byte).encode n.format (bs.map byteVal) e = blob.encode n.format bs e ∧
      (∀ s : String, Utf8.encode s = bs → text.encode n.format s e = blob.encode n.format bs e) ∧
      ((bs.length ≤ n.format.maxLength ∧ blob.encode n.format bs e =
        .ok () ⟨e.buffer ++ (n.lengthBytes bs.length ++ bs), e.depth⟩) ∨
      (n.format.maxLength < bs.length ∧
        blob.encode n.format bs e = .error (.lengthOutOfRange bs.length) e))) ∧
    ∀ d : Decoder, 0 < d.depth.remaining →
      (∀ (bs : Bytes) (d' : Decoder), blob.decode n.format d = .ok bs d' ↔
        (seq byte).decode n.format d = .ok (bs.map byteVal) d') ∧
      (∀ x d', blob.decode n.format d = .error x d' →
        ∃ y d'', (seq byte).decode n.format d = .error y d'' ∧ x.SameKind y) ∧
      (∀ y d', (seq byte).decode n.format d = .error y d' →
        ∃ x d'', blob.decode n.format d = .error x d'' ∧ x.SameKind y) ∧
      ∀ (s : String) (d' : Decoder), text.decode n.format d = .ok s d' ↔
        blob.decode n.format d = .ok (Utf8.encode s) d' := by
  constructor
  · intro bs e he
    refine ⟨Encoder.list_byte n.format bs he, fun s hs => ?_, n.blob_encode_cases bs e⟩
    subst hs
    rfl
  · intro d hd
    have halike := Decoder.blob_endAlike n.format hd
    exact ⟨halike.ok_iff, fun _ _ => halike.error_of_blob, fun _ _ => halike.error_of_list,
      fun s d' => Decoder.text_eq_ok n.format s d d'⟩

/-- A text of two bytes, and the length of a blob with half of its bytes behind it. -/
theorem blobs_interchangeable_truncated :
    let F := canonical.format
    let e : Encoder := ⟨[9], .full 1⟩
    let written : Encoder := ⟨[9, 2, 0xC3, 0xA9], .full 1⟩
    let sound := fun k => (⟨⟨[2, 0xC3, 0xA9, 7], k⟩, .full 1⟩ : Decoder)
    let short := fun k => (⟨⟨[4, 7, 8], k⟩, .full 1⟩ : Decoder)
    0 < e.depth.remaining ∧ (seq byte).encode F (List.map byteVal [0xC3, 0xA9]) e = .ok () written ∧
    text.encode F "é" e = .ok () written ∧
    0 < (sound 0).depth.remaining ∧
    (seq byte).decode F (sound 0) = .ok (List.map byteVal [0xC3, 0xA9]) (sound 3) ∧
    text.decode F (sound 0) = .ok "é" (sound 3) ∧
    0 < (short 0).depth.remaining ∧
    blob.decode F (short 0) = .error (.truncated 1 4 2) (short 1) ∧
    ∃ y d, (seq byte).decode F (short 0) = .error y d ∧ (Error.truncated 1 4 2).SameKind y := by
  intro F e written sound short
  have hwrite : blob.encode F [0xC3, 0xA9] e = .ok () written := by cbv
  have hread : blob.decode F (sound 0) = .ok [0xC3, 0xA9] (sound 3) := by cbv
  have hshort : blob.decode F (short 0) = .error (.truncated 1 4 2) (short 1) := by cbv
  obtain ⟨hlist, htext, -⟩ := (blobs_interchangeable canonical).1 [0xC3, 0xA9] e (by decide)
  obtain ⟨hok, -, -, hspelled⟩ := (blobs_interchangeable canonical).2 (sound 0) (by decide)
  obtain ⟨-, hfail, -⟩ := (blobs_interchangeable canonical).2 (short 0) (by decide)
  exact ⟨by decide, hlist.trans hwrite, (htext "é" (by cbv)).trans hwrite, by decide,
    (hok _ _).1 hread, (hspelled "é" _).2 hread, by decide, hshort, hfail _ _ hshort⟩

end FormatName

end WireCodec
