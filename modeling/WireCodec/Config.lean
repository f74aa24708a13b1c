import WireCodec.Format.Basic

/-!
# Codec settings

How deep containers may nest and whether a whole-input decode refuses bytes left
over. The depth must be positive and within what the format allows.
-/
namespace WireCodec

structure Config where
  maxContainerDepth : Nat
  rejectTrailing : Bool
  deriving DecidableEq, Repr

namespace Config

/-- The container depth of a codec that is set up without settings, the format permitting. -/
def defaultDepth : Nat := 500

def default : Config := ⟨defaultDepth, true⟩
/-- The other setting stays. -/
def withDepth (c : Config) (depth : Nat) : Config := ⟨depth, c.rejectTrailing⟩
def allowTrailing (c : Config) : Config := ⟨c.maxContainerDepth, false⟩

def validate (c : Config) (F : Format) : Except Error Unit :=
  if c.maxContainerDepth = 0 then
    .error (.invalidConfig "max_container_depth must be positive")
  else if F.maxContainerDepth < c.maxContainerDepth then
    .error (.invalidConfig
      s!"max_container_depth {c.maxContainerDepth} exceeds the format's limit {F.maxContainerDepth}")
  else .ok ()

/-- Just the positive depths within the format's limit are accepted. -/
theorem validate_eq_ok_iff {c : Config} {F : Format} :
    c.validate F = .ok () ↔ 0 < c.maxContainerDepth ∧ c.maxContainerDepth ≤ F.maxContainerDepth := by
  simp only [validate]
  split
  · simp; omega
  · split
    · simp; omega
    · simp; omega

end Config

end WireCodec
