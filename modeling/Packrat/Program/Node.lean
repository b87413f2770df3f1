import Packrat.Value.Basic
set_option autoImplicit false
set_option relaxedAutoImplicit false

/-!
# Program trees

A program is a row of statements, which are comments and objects. Nothing is evaluated: numbers
keep the digits that were written, and texts all of their characters.

## Main definitions

* `Packrat.Program.Node` — the trees.
* `Packrat.Program.Node.literal?` — the sign and digits of a number, as written.
* `Packrat.Program.Node.isExclusive?` — whether a range leaves out its end.
-/

namespace Packrat.Program

/-- A program or a part of one. -/
inductive Node where
  | comment (text : String)
  | nil
  | bool (value : Bool)
  | integer (digits : String) (sign : Option String)
  /-- A number with a point, which is one of its digits. -/
  | decimal (digits : String) (sign : Option String)
  | character (char : String)
  | string (text : String)
  | regex (pattern : String)
  | keyValue (key value : Node)
  /-- A range, with its third point if there is one. -/
  | range (start stop : Node) (exclusivity : Option String)
  | hash (pairs : List Node)
  | list (items : List Node)
  | program (statements : List Node)
  deriving Inhabited

namespace Node

/-- Whether two trees are the same. -/
def same : Node → Node → Bool
  | .comment s, .comment t | .character s, .character t | .string s, .string t
  | .regex s, .regex t => s == t
  | .nil, .nil => true
  | .bool a, .bool b => a == b
  | .integer s a, .integer t b | .decimal s a, .decimal t b => s == t && a == b
  | .keyValue k v, .keyValue l w => k.same l && v.same w
  | .range a b x, .range c d y => a.same c && b.same d && x == y
  | .hash as, .hash bs | .list as, .list bs | .program as, .program bs => allSame as bs
  | _, _ => false
where
  /-- Whether two rows of trees are the same. -/
  allSame : List Node → List Node → Bool
    | [], [] => true
    | a :: as, b :: bs => a.same b && allSame as bs
    | _, _ => false

mutual

/-- Every node is the same as itself. -/
theorem same_self : ∀ n : Node, n.same n = true
  | .comment _ | .nil | .bool _ | .integer _ _ | .decimal _ _ | .character _ | .string _
  | .regex _ => by simp [same]
  | .keyValue k v => by simp [same, same_self k, same_self v]
  | .range a b _ => by simp [same, same_self a, same_self b]
  | .hash ns | .list ns | .program ns => by simp [same, allSame_self ns]

/-- Every row of nodes is the same as itself. -/
theorem allSame_self : ∀ ns : List Node, same.allSame ns ns = true
  | [] => by simp [same.allSame]
  | n :: ns => by simp [same.allSame, same_self n, allSame_self ns]

end

mutual

/-- Nodes that compare as the same are equal. -/
theorem eq_of_same : ∀ a b : Node, a.same b = true → a = b
  | .comment _, b | .nil, b | .bool _, b | .integer _ _, b | .decimal _ _, b | .character _, b
  | .string _, b | .regex _, b => by cases b <;> simp [same]
  | .keyValue k v, b => by
    cases b <;> simp only [same, Bool.and_eq_true, Bool.false_eq_true, false_implies]
    rintro ⟨h, i⟩; rw [eq_of_same _ _ h, eq_of_same _ _ i]
  | .range a c _, b => by
    cases b <;> simp only [same, Bool.and_eq_true, Bool.false_eq_true, false_implies, beq_iff_eq]
    rintro ⟨⟨h, i⟩, rfl⟩; rw [eq_of_same _ _ h, eq_of_same _ _ i]
  | .hash as, b | .list as, b | .program as, b => by
    cases b <;> simp only [same, Bool.false_eq_true, false_implies]
    intro h; rw [eq_of_allSame _ _ h]

/-- Rows of nodes that compare as the same are equal. -/
theorem eq_of_allSame : ∀ as bs : List Node, same.allSame as bs = true → as = bs
  | [], bs => by cases bs <;> simp [same.allSame]
  | a :: as, bs => by
    cases bs <;> simp only [same.allSame, Bool.and_eq_true, Bool.false_eq_true, false_implies]
    rintro ⟨h, i⟩; rw [eq_of_same _ _ h, eq_of_allSame _ _ i]

end

/-- Equality of nodes is decided by comparing them part by part. -/
instance : DecidableEq Node := fun a b =>
  if h : a.same b then .isTrue (eq_of_same a b h)
  else .isFalse fun e => h (e ▸ same_self a)

/-- The sign and digits of a number, as written. -/
def literal? : Node → Option String
  | .integer digits sign | .decimal digits sign => some (sign.getD "" ++ digits)
  | _ => none

/-- Whether a range leaves out its end, which it does if it has a third point. -/
def isExclusive? : Node → Option Bool
  | .range _ _ exclusivity => some exclusivity.isSome
  | _ => none

end Node

end Packrat.Program
