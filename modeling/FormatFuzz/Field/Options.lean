-- SUMMARY: How fields take part in fuzz runs, and changes to that.
import FormatFuzz.Value

/-! # Fuzz options -/

namespace FormatFuzz

/-- How a field takes part in a fuzz run. -/
structure FieldOptions where
  /-- Leaves out the field and everything below it when false. -/
  enabled : Bool := true
  /-- Replaces the generated candidates. -/
  values : Option (List Value) := none
  /-- Follows the generated candidates. -/
  extra : List Value := []
  /-- The longest text generated. -/
  maxLength : Option Nat := none
  deriving DecidableEq, Repr, Inhabited

/-- Changes to the options of a field. -/
structure OptionsPatch where
  enabled : Option Bool := none
  values : Option (List Value) := none
  extra : List Value := []
  maxLength : Option Nat := none
  deriving DecidableEq, Repr, Inhabited

/-- A patch adds its extra values and otherwise replaces only what it names. -/
def OptionsPatch.apply (p : OptionsPatch) (o : FieldOptions) : FieldOptions where
  enabled := p.enabled.getD o.enabled
  values := p.values.or o.values
  extra := o.extra ++ p.extra
  maxLength := p.maxLength.or o.maxLength

end FormatFuzz
