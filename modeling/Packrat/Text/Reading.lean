import Packrat.Text.Basic
set_option autoImplicit false
set_option relaxedAutoImplicit false

/-!
# Ways to read a text

Rules ask about a text at positions. As a rule positions are counted from the beginning of the text.
But a reading may also start in front of it, where the text stands once more: the place right in
front of the beginning holds the last character, the one before that the last but one, and so on.
Only single characters are read across the beginning. Characters in a row, and what lies between two
places, are sought in the text itself, with a place in front of it standing for the place in it that
holds the same character.

## Main definitions

* `Packrat.Reading` — the answers to what rules ask about a text.
* `Packrat.Text.reading` — a text by its positions.
* `Packrat.Text.readingFrom` — a text by places that start in front of it.

## Main results

* `Packrat.Text.readingFrom_zero` — places that start with the text are its positions.
-/

namespace Packrat

/-- What a look at a place finds. -/
inductive Sight where
  | char (c : Char)
  /-- The text has ended. -/
  | ending
  /-- The place is too far in front of the text to hold a character. -/
  | nowhere
  deriving DecidableEq, Repr

/-- The answers to what rules ask about a text. -/
structure Reading where
  /-- What stands at a place. -/
  look : Nat → Sight
  /-- Whether the given characters stand in a row from a place on. -/
  hasAt : List Char → Nat → Bool
  /-- Whether a line starts at a place, if there is a way to tell. -/
  startsLine? : Nat → Option Bool
  /-- The characters between two places. -/
  slice : Nat → Nat → String
  /-- The number of characters from a place to the end. -/
  ahead : Nat → Nat

/-- Whether a line starts behind the given character. -/
def endsLine (c : Char) : Bool := decide (c = '\n' ∨ c = '\r')

namespace Text

/-- What stands at a position. -/
def look (t : Text) (position : Nat) : Sight :=
  match t.char? position with
  | some c => .char c
  | none => .ending

/-- Whether a line starts at a position: at the beginning, and behind the end of a line. Behind the
text there is no way to tell. -/
def startsLine? (t : Text) : Nat → Option Bool
  | 0 => some true
  | before + 1 => (t.char? before).map endsLine

/-- A text by its positions. -/
def reading (t : Text) : Reading where
  look := t.look
  hasAt := t.hasAt
  startsLine? := t.startsLine?
  slice := t.slice
  ahead position := t.size - position

/-- The position that a place stands for, where places start so far in front of a text. A place that
is too far in front stands for the beginning. -/
def positionOf (t : Text) (lead place : Nat) : Nat :=
  if lead ≤ place then place - lead else t.size - (lead - place)

/-- A text by places that start so far in front of it. -/
def readingFrom (t : Text) (lead : Nat) : Reading where
  look place :=
    if place < lead ∧ t.size < lead - place then .nowhere else t.look (t.positionOf lead place)
  hasAt cs place := t.hasAt cs (t.positionOf lead place)
  startsLine? place :=
    if lead ≤ place then t.startsLine? (place - lead)
    else if t.size ≤ lead - place then none
    else t.startsLine? (t.positionOf lead place)
  slice start stop := t.slice (t.positionOf lead start) (t.positionOf lead stop)
  ahead place := t.size + lead - place

/-- Places that start with the text are its positions. -/
@[simp] theorem positionOf_zero (t : Text) (place : Nat) : t.positionOf 0 place = place := by
  simp [positionOf]

/-- Places that start with the text are its positions. -/
theorem readingFrom_zero (t : Text) : t.readingFrom 0 = t.reading := by
  simp [readingFrom, reading]

end Text

end Packrat
