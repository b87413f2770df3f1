set_option autoImplicit false
set_option relaxedAutoImplicit false

/-!
# Mistakes in rules

The author of a rule can write things that are no rule. Each mistake is told apart by its cause; the
wording comes last.

## Main definitions

* `Packrat.RuleError` — the mistakes.
* `Packrat.RuleError.message` — their wording.
-/

namespace Packrat

/-- A mistake in the way a rule is written. -/
inductive RuleError where
  /-- Something that is neither a rule nor text stands for a rule; this is how it is shown. -/
  | notARule (shown : String)
  /-- An operator stands between two things of these types, none of which is a rule. -/
  | noOperator (sign left right : String)
  /-- Something of this type stands behind text and a plus sign. -/
  | notAppended (type : String)
  /-- The greatest number of repetitions is below the least. -/
  | boundsReversed (shown : String) (least most : Int)
  /-- Text of some other length stands for a character. -/
  | notACharacter (length : Nat)
  /-- Something that is not text, but of this type, stands for a character. -/
  | notText (type : String)
  /-- A span lacks an end. -/
  | spanTooShort
  /-- Something that has no ends stands for a span; this is its type. -/
  | notASpan (type : String)
  /-- A record stands for a span: its ends are not numbered. -/
  | noFirstEnd
  deriving DecidableEq, Repr

/-- The wording of a mistake. -/
def RuleError.message : RuleError → String
  | .notARule shown => "Cannot make a rule out of " ++ shown
  | .noOperator sign left right =>
    "unsupported operand type(s) for " ++ sign ++ ": '" ++ left ++ "' and '" ++ right ++ "'"
  | .notAppended type => "can only concatenate str (not \"" ++ type ++ "\") to str"
  | .boundsReversed shown least most =>
    "Repetition of " ++ shown ++ " has max " ++ toString most ++ " below min " ++ toString least
  | .notACharacter length =>
    "ord() expected a character, but string of length " ++ toString length ++ " found"
  | .notText type => "ord() expected string of length 1, but " ++ type ++ " found"
  | .spanTooShort => "tuple index out of range"
  | .notASpan type => "'" ++ type ++ "' object is not subscriptable"
  | .noFirstEnd => "0"

end Packrat
