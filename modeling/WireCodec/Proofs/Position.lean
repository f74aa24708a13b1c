import WireCodec.Proofs.Framing

/-!
# Decoding at any position

A decoder does not see what it has already read, except where it compares the keys of a map,
and these it has read itself. So the bytes that a value is read from may stand behind
any others: the run takes the same course there. Only the places which a failure reports are
counted from the start of the whole input, and move with the bytes.
-/
namespace WireCodec

/-- The same failure, `k` bytes further on. -/
def Error.moved (k : Nat) : Error → Error
  | truncated offset needed remaining => truncated (k + offset) needed remaining
  | invalidUtf8 offset source => invalidUtf8 (k + offset) source
  | invalidChar offset => invalidChar (k + offset)
  | x => x

namespace Cursor

/-- Runs on the input `u`, and on the same bytes behind `p`. -/
def behind (p u : Bytes) : Coupling Cursor where
  states c c' := ∃ k, k ≤ u.length ∧ c = ⟨u, k⟩ ∧ c' = ⟨p ++ u, p.length + k⟩
  excused _ _ := False
  fails x _ y := y = x.moved p.length

variable {p u : Bytes} {k : Nat}

theorem rest_behind : (⟨p ++ u, p.length + k⟩ : Cursor).rest = (⟨u, k⟩ : Cursor).rest :=
  List.drop_length_add_append k

theorem remaining_behind :
    (⟨p ++ u, p.length + k⟩ : Cursor).remaining = (⟨u, k⟩ : Cursor).remaining := by
  rw [← length_rest, rest_behind, length_rest]

theorem behind_take (m : Nat) : (behind p u).Coupled (take m) (take m) := by
  rintro _ _ ⟨k, hk, rfl, rfl⟩
  simp only [take, remaining_behind, rest_behind]
  split
  · next hm =>
    have hle : k + m ≤ u.length := by
      have hrem : (⟨u, k⟩ : Cursor).remaining = u.length - k := rfl
      omega
    exact .ok ⟨k + m, hle, rfl, congrArg _ (Nat.add_assoc ..)⟩
  · exact .error ⟨k, hk, rfl, rfl⟩ rfl

/-- A failure that names no place is the same behind `p`. -/
theorem behind_stops {x : Error} (h : x.moved p.length = x) (c : Cursor) :
    (behind p u).Stops x c x := .inr h.symm

theorem onDecoders_behind (n : FormatName) : (behind p u).OnDecoders n where
  take := behind_take
  refusal x c c' _ hx := behind_stops (by cases hx <;> rfl) c
  char c c' e h := by
    obtain ⟨k, -, rfl, rfl⟩ := h
    exact .inr rfl
  text c c' e x h := by
    obtain ⟨k, -, rfl, rfl⟩ := h
    exact .inr rfl
  order _ c _ _ := behind_stops rfl c
  depth m c _ _ := behind_stops rfl c
  bytes c c' bs bs' t t' h hr hr' h' := by
    obtain ⟨k, -, rfl, rfl⟩ := h
    obtain ⟨l, -, hc, hc'⟩ := h'
    have hlen : bs.length = bs'.length := by
      have hoff := congrArg offset hc
      have hoff' := congrArg offset hc'
      simp only [offset_advance] at hoff hoff'
      omega
    rw [rest_behind, hr] at hr'
    exact List.append_inj_left hr' hlen

end Cursor

namespace Schema

open Cursor

theorem states_behind {p u : Bytes} {d e : Decoder} (h : (behind p u).onDecoder.states d e) :
    e = ⟨⟨p ++ u, p.length + d.offset⟩, d.depth⟩ := by
  obtain ⟨c, b⟩ := d
  obtain ⟨c', b'⟩ := e
  obtain ⟨⟨k, -, hc, hc'⟩, hb⟩ := h
  obtain rfl : c = ⟨u, k⟩ := hc
  obtain rfl : c' = ⟨p ++ u, p.length + k⟩ := hc'
  obtain rfl : b = b' := hb
  rfl

/-- The run behind `p` is the one over the bytes alone. -/
theorem decode_behind {n : FormatName} {s : Schema} {u : Bytes} {b : DepthBudget}
    {r : Except Error s.Val} {k : Nat}
    (h : s.decode n.format ⟨⟨u, 0⟩, b⟩ = ended r ⟨⟨u, k⟩, b⟩) (p : Bytes) :
    s.decode n.format ⟨⟨p ++ u, p.length⟩, b⟩ =
      ended (r.mapError (·.moved p.length)) ⟨⟨p ++ u, p.length + k⟩, b⟩ := by
  have ha := (onDecoders_behind n).decode s ⟨⟨u, 0⟩, b⟩ ⟨⟨p ++ u, p.length⟩, b⟩
    ⟨⟨0, Nat.zero_le _, rfl, rfl⟩, rfl⟩
  rw [h] at ha
  cases r with
  | ok v =>
    obtain ⟨e, he, hs⟩ := ha.of_ok
    rw [he, states_behind hs]
    rfl
  | error x =>
    obtain hx | ⟨y, e, he, hs, rfl⟩ := ha.of_error
    · exact hx.elim
    · rw [he, states_behind hs]
      rfl

/-- Decoding is the same at every position. What has been read before makes no difference to the
value, to the number of bytes read for it or to the failure, keys out of order among them; only the
places that a failure names are those in the whole input. -/
theorem decode_position_independent (n : FormatName) (s : Schema) (u : Bytes) (b : DepthBudget) :
    ∃ (r : Except Error s.Val) (k : Nat), k ≤ u.length ∧ ∀ p : Bytes,
      s.decode n.format ⟨⟨p ++ u, p.length⟩, b⟩ =
        ended (r.mapError (·.moved p.length)) ⟨⟨p ++ u, p.length + k⟩, b⟩ := by
  obtain ⟨r, k, -, h⟩ := advancing_decode n.forward s u ⟨0, Nat.zero_le _⟩ b
  exact ⟨r, k, k.property, decode_behind (h ())⟩

/-- What stands before a map is not held against its keys, whatever it is. -/
example : (map .ascending (scalar (.uint .w8)) (scalar .bool)).decode FormatName.canonical.format
    ⟨⟨[1, 5, 1, 6] ++ [2, 3, 0, 5, 2], 4⟩, .full 1⟩ =
      .error (.invalidValue "bool" 2) ⟨⟨[1, 5, 1, 6] ++ [2, 3, 0, 5, 2], 9⟩, .full 1⟩ := by cbv

end Schema

end WireCodec
