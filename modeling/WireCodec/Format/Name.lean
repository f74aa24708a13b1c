import WireCodec.Format.Canonical
import WireCodec.Format.Fast
import WireCodec.Text.Quoted

/-!
# Formats by name

The formats a user can ask for at run time.
-/
namespace WireCodec

inductive FormatName where
  | canonical
  | fast
  deriving DecidableEq, Repr

namespace FormatName

def format : FormatName → Format
  | canonical => .canonical
  | fast => .fast

protected def toString : FormatName → String
  | canonical => "canonical"
  | fast => "fast"

/-- A name is taken as it is spelled: no other case, no blanks. -/
def ofString (s : String) : Except Error FormatName :=
  if s = "canonical" then .ok canonical
  else if s = "fast" then .ok fast
  else .error (.invalidConfig s!"Unknown format {Text.quoted s}")

/-- Every format is found again by its name. -/
theorem ofString_toString (n : FormatName) : ofString n.toString = .ok n := by
  cases n <;> simp [ofString, FormatName.toString]

end FormatName

end WireCodec
