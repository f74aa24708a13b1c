import WireCodec.Text.Utf8

/-!
# Failures

Every way in which encoding, decoding or setting up a codec can fail, with the
numbers a caller needs to locate the fault. The wording is in `Error.message`.
-/
namespace WireCodec

inductive Error where
  | truncated (offset needed remaining : Nat)
  | invalidValue (what : String) (value : Nat)
  | invalidUtf8 (offset : Nat) (source : Utf8Error)
  | invalidChar (offset : Nat)
  | lengthOutOfRange (length : Nat)
  | malformed (what reason : String)
  | depthExceeded (max : Nat)
  | nonCanonicalOrder
  | invalidRange (what : String) (start stop limit : Nat)
  | trailingBytes (count : Nat)
  | invalidConfig (reason : String)
  deriving DecidableEq, Repr

namespace Error

/-- A length that no 64-bit word holds is reported as the largest word. -/
def ofLength (n : Int) : Error :=
  .lengthOutOfRange (if 0 ≤ n ∧ n < UInt64.size then n.toNat else UInt64.size - 1)

def message : Error → String
  | truncated offset needed remaining =>
    s!"Truncated input: need {needed} bytes at offset {offset}, but only {remaining} remain"
  | invalidValue what value => s!"Incorrect value for {what}: {value}"
  | invalidUtf8 offset _ => s!"Invalid UTF-8 text at offset {offset}"
  | invalidChar offset => s!"Invalid encoded char at offset {offset}"
  | lengthOutOfRange length => s!"Length value out of range: {length}"
  | malformed what reason => s!"Malformed {what} encoding: {reason}"
  | depthExceeded max => s!"Exceeded maximum container depth {max}"
  | nonCanonicalOrder =>
    "Error while decoding map: keys are not serialized in the expected order"
  | invalidRange what start stop limit =>
    s!"Invalid {what} range {start}..{stop}: only {limit} bytes are available"
  | trailingBytes count => s!"Some input bytes were not read: {count} remaining"
  | invalidConfig reason => s!"Invalid codec config: {reason}"

/-- The text of the underlying failure, where there is one. -/
def source? : Error → Option String
  | invalidUtf8 _ source => some source.message
  | _ => none

end Error

end WireCodec
