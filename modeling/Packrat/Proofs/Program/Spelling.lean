import Packrat.Proofs.Parsing.Accepting
import Packrat.Proofs.Program.Solution
set_option autoImplicit false
set_option relaxedAutoImplicit false

/-!
# How trees are spelled

The composite objects as an ordinary grammar: what is allowed where, with no order among the
alternatives and no preference for longer pieces. Only the pieces without further objects in them
are taken as the grammar reads them on their own.

A document that goes on up to the end of the text may leave out its closing line break, and no other
may.

## Main definitions

* `Packrat.Program.Accepts` — a phrase accepts a text on its own.
* `Packrat.Program.Row`, `Packrat.Program.Delimited` — elements with commas between them, and marks
  around them.
* `Packrat.Program.Spells` — a text spells a tree.

## Main results

* `Packrat.Program.Spells.induction_value` — induction on an object by its last piece.
* `Packrat.Program.accepts_iff` — what a phrase accepts is what its reader reads to the end.
-/

namespace Packrat.Program

/-- A phrase accepts a text on its own, as the given node. -/
def Accepts (x : Phrase) (cs : List Char) (v : Node) : Prop :=
  grammar.parse {} (.named x) (String.ofList cs) = .ok (.object v)

/-- Whether a phrase accepts a text is decided by parsing it. -/
instance (x : Phrase) (cs : List Char) (v : Node) : Decidable (Accepts x cs v) :=
  match h : grammar.parse {} (.named x) (String.ofList cs) with
  | .ok (.object w) => decidable_of_iff (w = v) (by simp [Accepts, h])
  | .ok (.text _) | .ok (.items _) | .ok (.fields _) | .error _ => .isFalse (by simp [Accepts, h])

/-- Spaces and tabs. -/
def Spaces (cs : List Char) : Prop := ∀ c ∈ cs, c = ' ' ∨ c = '\t'

/-- Spaces, tabs and characters of line breaks. -/
def Blanks (cs : List Char) : Prop := ∀ c ∈ cs, c = ' ' ∨ c = '\t' ∨ c = '\r' ∨ c = '\n'

/-- Whether characters are spaces is decided one by one. -/
instance : DecidablePred Spaces := fun cs => List.decidableBAll (fun c => c = ' ' ∨ c = '\t') cs

/-- Whether characters are blanks is decided one by one. -/
instance : DecidablePred Blanks := fun cs =>
  List.decidableBAll (fun c => c = ' ' ∨ c = '\t' ∨ c = '\r' ∨ c = '\n') cs

/-- At least one element, with commas between them. -/
inductive Row (Element : List Char → Node → Prop) : List Char → List Node → Prop
  | single {a : List Char} {v : Node} : Element a v → Row Element a [v]
  | comma {a s s' cs : List Char} {v : Node} {vs : List Node} : Element a v → Blanks s → Blanks s' →
      Row Element cs vs → Row Element (a ++ (s ++ ',' :: (s' ++ cs))) (v :: vs)

/-- Elements with commas between them and marks around them. There need not be any. -/
inductive Delimited (Element : List Char → Node → Prop) (opening closing : Char) :
    List Char → List Node → Prop
  | empty {s : List Char} : Blanks s →
      Delimited Element opening closing (opening :: (s ++ [closing])) []
  | row {s s' cs : List Char} {vs : List Node} : Blanks s → Blanks s' → Row Element cs vs →
      Delimited Element opening closing (opening :: (s ++ (cs ++ (s' ++ [closing])))) vs

/-- The text spells the tree. If it is `closed`, the document that it ends with, if any, must have
its closing line break.

* `simple` — a simple object is spelled as the grammar accepts it on its own.
* `keyValue` — a key is a simple object; a colon with spaces around it stands behind it.
* `range` — the ends are integers or characters, with two points and perhaps a third one between
  them.
* `hash` — the elements are pairs of a key and a value.
* `list` — the elements are any objects. -/
inductive Spells : Prop → List Char → Node → Prop
  | simple {closed : Prop} {cs : List Char} {v : Node} : Accepts .simpleObject cs v →
      (closed → Accepts .hereDoc cs v → EndsLine cs) → Spells closed cs v
  | keyValue {closed : Prop} {a pad pad' b : List Char} {k w : Node} : Accepts .simpleObject a k →
      (Accepts .hereDoc a k → EndsLine a) → Spaces pad → Spaces pad' → Spells closed b w →
      Spells closed (a ++ (pad ++ ':' :: (pad' ++ b))) (.keyValue k w)
  | range {closed : Prop} {a pad point pad' b : List Char} {start stop : Node} {x : Option String} :
      (Accepts .integer a start ∨ Accepts .character a start) → Spaces pad →
      (x = none ∧ point = [] ∨ x = some "." ∧ point = ['.']) → Spaces pad' →
      (Accepts .integer b stop ∨ Accepts .character b stop) →
      Spells closed (a ++ (pad ++ '.' :: '.' :: (point ++ (pad' ++ b)))) (.range start stop x)
  | hash {closed : Prop} {cs : List Char} {pairs : List Node} :
      Delimited (Spells True) '\x7b' '\x7d' cs pairs →
      (∀ pair ∈ pairs, ∃ k w, pair = .keyValue k w) → Spells closed cs (.hash pairs)
  | list {closed : Prop} {cs : List Char} {items : List Node} :
      Delimited (Spells True) '[' ']' cs items → Spells closed cs (.list items)

/-- Induction on an object by its last piece: what is true of every object that is no pair, and is
passed on from the value of a pair to the pair, is true of all objects. -/
@[elab_as_elim]
theorem Spells.induction_value {closed : Prop}
    {motive : ∀ (o : List Char) (v : Node), Spells closed o v → Prop}
    (simple : ∀ {o v} (ha : Accepts .simpleObject o v)
      (hclosed : closed → Accepts .hereDoc o v → EndsLine o), motive o v (.simple ha hclosed))
    (keyValue : ∀ {a pad pad' b k w} (ha : Accepts .simpleObject a k)
      (hclosed : Accepts .hereDoc a k → EndsLine a) (hpad : Spaces pad) (hpad' : Spaces pad')
      (hb : Spells closed b w), motive b w hb → motive _ _ (.keyValue ha hclosed hpad hpad' hb))
    (range : ∀ {a pad point pad' b start stop x}
      (ha : Accepts .integer a start ∨ Accepts .character a start) (hpad : Spaces pad)
      (hx : x = none ∧ point = [] ∨ x = some "." ∧ point = ['.']) (hpad' : Spaces pad')
      (hb : Accepts .integer b stop ∨ Accepts .character b stop),
      motive _ _ (.range ha hpad hx hpad' hb))
    (hash : ∀ {cs pairs} (hpairs : Delimited (Spells True) '\x7b' '\x7d' cs pairs)
      (hall : ∀ pair ∈ pairs, ∃ k w, pair = .keyValue k w), motive _ _ (.hash hpairs hall))
    (list : ∀ {cs items} (hitems : Delimited (Spells True) '[' ']' cs items),
      motive _ _ (.list hitems)) :
    ∀ {o : List Char} {v : Node} (h : Spells closed o v), motive o v h
  | _, _, .simple ha hclosed => simple ha hclosed
  | _, _, @Spells.keyValue _ a pad pad' b _ _ ha hclosed hpad hpad' hb =>
    keyValue ha hclosed hpad hpad' hb (induction_value simple keyValue range hash list hb)
  | _, _, .range ha hpad hx hpad' hb => range ha hpad hx hpad' hb
  | _, _, .hash hpairs hall => hash hpairs hall
  | _, _, .list hitems => list hitems
termination_by o => o.length
decreasing_by
  simp only [List.length_append, List.length_cons]
  omega

/-! ## Accepted texts -/

/-- A text is accepted just as what the reader of the phrase reads to the end, if the limit is not
exceeded. -/
lemma parse_named_iff {x : Phrase} {read : Reader} (hread : ∀ cs, x.read cs = whole (read cs))
    {settings : Settings} {text : String}
    (h : ¬ TooDeep (grammar.parse settings (.named x) text)) {result : Value Node} :
    grammar.parse settings (.named x) text = .ok result ↔
      ∃ v, result = .object v ∧ read text.toList = some (v, []) := by
  rw [(solves_grammar text).parse_eq_ok_iff h, hread]
  constructor
  · rintro ⟨produced, hwhole, rfl⟩
    cases hr : read text.toList with
    | none =>
      rw [hr] at hwhole
      cases hwhole
    | some piece =>
      obtain ⟨v, rest⟩ := piece
      rw [hr] at hwhole
      cases hwhole
      exact ⟨v, rfl, rfl⟩
  · rintro ⟨v, rfl, hr⟩
    rw [hr]
    exact ⟨_, rfl, rfl⟩

/-- What a phrase accepts, under whatever settings, is what its reader reads to the end. -/
lemma read_of_parse {x : Phrase} {read : Reader} {settings : Settings} {cs : List Char} {v : Node}
    (h : grammar.parse settings (.named x) (String.ofList cs) = .ok (.object v))
    (hread : ∀ cs, x.read cs = whole (read cs)) : read cs = some (v, []) := by
  obtain ⟨w, hw, hr⟩ := (parse_named_iff hread (not_tooDeep_of_ok h)).1 h
  rw [String.toList_ofList] at hr
  cases hw
  exact hr

/-- What a phrase that fits the limit accepts is what its reader reads to the end. -/
lemma accepts_iff {x : Phrase} {read : Reader} (hfits : grammar.fits 1000 (.named x) = true)
    (hread : ∀ cs, x.read cs = whole (read cs)) {cs : List Char} {v : Node} :
    Accepts x cs v ↔ read cs = some (v, []) := by
  refine ⟨fun h => read_of_parse h hread, fun hr => ?_⟩
  have hdeep : ¬ TooDeep (grammar.parse {} (.named x) (String.ofList cs)) :=
    Grammar.not_tooDeep_of_fits hfits
  refine (parse_named_iff hread hdeep).2 ⟨v, rfl, ?_⟩
  rw [String.toList_ofList, hr]

/-- A simple object is what its reader reads to the end. -/
lemma accepts_simpleObject {cs : List Char} {v : Node} :
    Accepts .simpleObject cs v ↔ simpleAt cs = some (v, []) :=
  accepts_iff (by decide +kernel) fun _ => rfl

/-- A document is what its reader reads to the end. -/
lemma accepts_hereDoc {cs : List Char} {v : Node} :
    Accepts .hereDoc cs v ↔ hereDocAt cs = some (v, []) :=
  accepts_iff (by decide +kernel) fun _ => rfl

/-- A number without a point is what its reader reads to the end. -/
lemma accepts_integer {cs : List Char} {v : Node} :
    Accepts .integer cs v ↔ integerAt cs = some (v, []) :=
  accepts_iff (by decide +kernel) fun _ => rfl

/-- A character is what its reader reads to the end. -/
lemma accepts_character {cs : List Char} {v : Node} :
    Accepts .character cs v ↔ characterAt cs = some (v, []) :=
  accepts_iff (by decide +kernel) fun _ => rfl

end Packrat.Program
