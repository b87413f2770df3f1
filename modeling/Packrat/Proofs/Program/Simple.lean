import Packrat.Proofs.Program.HereDoc
import Packrat.Proofs.Program.Number
set_option autoImplicit false
set_option relaxedAutoImplicit false

/-!
# Simple objects

The kinds of simple objects start with different characters, so it does not matter in which order
they are tried, except that a number with a point comes before one without.

## Main results

* `Packrat.Program.cuts_simpleAt` — simple objects are read in front of others as on their own.
* `Packrat.Program.cuts_endpointAt` — so are the ends of ranges.
-/

namespace Packrat.Program

/-- A word starts with its first character. -/
lemma starts_wordAt (c : Char) (word : List Char) (node : Node) :
    (wordAt (c :: word) node).Starts (· == c) := by
  intro cs v rest h
  simp only [wordAt, Option.map_eq_some_iff, dropPrefix?_eq_some] at h
  obtain ⟨_, rfl, -⟩ := h
  exact ⟨c, rfl, by simp⟩

/-- A character starts with its mark. -/
lemma starts_characterAt : characterAt.Starts (· == '\x60') := by
  intro cs v rest h
  obtain ⟨c, -, rfl, -⟩ := characterAt_eq_some.1 h
  exact ⟨'\x60', rfl, by simp⟩

/-- A symbol starts with a colon. -/
lemma starts_symbolAt : symbolAt.Starts (· == ':') := by
  intro cs v rest h
  obtain ⟨name, -, -, -, rfl, -⟩ := symbolAt_eq_some.1 h
  exact ⟨':', rfl, by simp⟩

/-- A text between two marks starts with the mark. -/
lemma starts_quotedAt (mark : Char) (make : String → Node) :
    (quotedAt mark make).Starts (· == mark) := by
  intro cs v rest h
  obtain ⟨body, -, rfl, -⟩ := quotedAt_eq_some.1 h
  exact ⟨mark, rfl, by simp⟩

/-- What is read starts as its reader does. -/
lemma Reader.Starts.head {read : Reader} {first : Char → Bool} (h : read.Starts first)
    {cs rest : List Char} {v : Node} (hread : read cs = some (v, rest)) {c : Char}
    (hc : c ∈ cs.head?) : first c = true := by
  obtain ⟨d, hd, hfirst⟩ := h cs v rest hread
  rwa [Option.some.inj (hc.symm.trans hd)]

/-- A reader that starts with one character is out of the way of one that does not start with it. -/
lemma Reader.Starts.disjoint {read : Reader} {first : Char → Bool} (h : read.Starts first)
    {mark : Char} (hmark : first mark = false) :
    ∀ cs v rest, read cs = some (v, rest) → ∀ c ∈ cs.head?, (c == mark) = false := by
  intro cs v rest hread c hc
  rw [beq_eq_false_iff_ne]
  rintro rfl
  have hfirst := h.head hread hc
  rw [hmark] at hfirst
  cases hfirst

/-- The word for nil is read in front of other characters as on its own. -/
lemma cuts_nilAt : nilAt.Cuts := cuts_wordAt _ (by decide) (by decide) (by decide)

/-- The word for what is true is read in front of other characters as on its own. -/
lemma cuts_trueAt : trueAt.Cuts := cuts_wordAt _ (by decide) (by decide) (by decide)

/-- The word for what is false is read in front of other characters as on its own. -/
lemma cuts_falseAt : falseAt.Cuts := cuts_wordAt _ (by decide) (by decide) (by decide)

/-- A truth value starts with a letter of one of its words. -/
lemma starts_booleanAt : booleanAt.Starts fun c => c == 't' || c == 'f' :=
  (starts_wordAt _ _ _).or (starts_wordAt _ _ _)

/-- A truth value is read in front of other characters as on its own. -/
lemma cuts_booleanAt : booleanAt.Cuts :=
  cuts_trueAt.or cuts_falseAt (starts_wordAt _ _ _) ((starts_wordAt _ _ _).disjoint (by decide))

/-- A string starts with a colon, a quotation mark or the mark of a document. -/
lemma starts_stringAt :
    stringAt.Starts fun c => c == ':' || (c == '\x27' || (c == '\x22' || c == '<')) :=
  starts_symbolAt.or ((starts_quotedAt _ _).or ((starts_quotedAt _ _).or starts_hereDocAt))

/-- A string is read in front of other characters as on its own. -/
lemma cuts_stringAt : stringAt.Cuts := by
  have hdouble : Reader.Cuts fun cs => (quotedAt '\x22' .string cs).or (hereDocAt cs) :=
    (cuts_quotedAt _ (by decide) (by decide)).or cuts_hereDocAt (starts_quotedAt _ _)
      (starts_hereDocAt.disjoint (by decide))
  have hsingle : Reader.Cuts fun cs =>
      (quotedAt '\x27' .string cs).or ((quotedAt '\x22' .string cs).or (hereDocAt cs)) :=
    (cuts_quotedAt _ (by decide) (by decide)).or hdouble (starts_quotedAt _ _)
      (((starts_quotedAt _ _).or starts_hereDocAt).disjoint (by decide))
  exact cuts_symbolAt.or hsingle starts_symbolAt
    (((starts_quotedAt _ _).or ((starts_quotedAt _ _).or starts_hereDocAt)).disjoint (by decide))

/-! ## Simple objects as a whole -/

/-- What the simple objects start with that are neither words nor numbers. -/
def markFirst (c : Char) : Bool :=
  c == '\x60' || ((c == ':' || (c == '\x27' || (c == '\x22' || c == '<'))) || c == '/')

/-- What simple objects start with. -/
def simpleFirst (c : Char) : Bool :=
  c == 'n' || ((c == 't' || c == 'f') || (numericFirst c || markFirst c))

/-- Characters, strings and patterns start with their marks. -/
lemma starts_markedAt :
    Reader.Starts (fun cs => (characterAt cs).or ((stringAt cs).or (regexAt cs))) markFirst :=
  starts_characterAt.or (starts_stringAt.or (starts_quotedAt '/' .regex))

/-- Characters, strings and patterns are read in front of other characters as on their own. -/
lemma cuts_markedAt :
    Reader.Cuts fun cs => (characterAt cs).or ((stringAt cs).or (regexAt cs)) := by
  have hregex : regexAt.Starts (· == '/') := starts_quotedAt '/' .regex
  have hstring : Reader.Cuts fun cs => (stringAt cs).or (regexAt cs) := by
    refine cuts_stringAt.or (cuts_quotedAt _ (by decide) (by decide)) starts_stringAt ?_
    intro cs v rest h c hc
    rw [eq_of_beq (hregex.head h hc)]
    decide
  exact cuts_characterAt.or hstring starts_characterAt
    ((starts_stringAt.or hregex).disjoint (by decide))

/-- No number starts with one of the marks. -/
lemma numericFirst_of_markFirst {c : Char} (h : markFirst c = true) : numericFirst c = false := by
  simp only [markFirst, Bool.or_eq_true, beq_iff_eq] at h
  rcases h with rfl | (rfl | rfl | rfl | rfl) | rfl <;> decide

/-- A simple object starts with a letter of a word, as a number or with a mark. -/
lemma starts_simpleAt : simpleAt.Starts simpleFirst :=
  (starts_wordAt 'n' _ _).or (starts_booleanAt.or (starts_numericAt.or starts_markedAt))

/-- Simple objects are read in front of others as on their own. -/
theorem cuts_simpleAt : simpleAt.Cuts := by
  have hnumeric : Reader.Cuts fun cs =>
      (numericAt cs).or ((characterAt cs).or ((stringAt cs).or (regexAt cs))) := by
    refine cuts_numericAt.or cuts_markedAt starts_numericAt ?_
    exact fun cs v rest h c hc => numericFirst_of_markFirst (starts_markedAt.head h hc)
  have hboolean : Reader.Cuts fun cs => (booleanAt cs).or
      ((numericAt cs).or ((characterAt cs).or ((stringAt cs).or (regexAt cs)))) := by
    refine cuts_booleanAt.or hnumeric starts_booleanAt ?_
    intro cs v rest h c hc
    have hfirst := (starts_numericAt.or starts_markedAt).head h hc
    by_contra hword
    simp only [Bool.not_eq_false, Bool.or_eq_true, beq_iff_eq] at hword
    rcases hword with rfl | rfl <;> exact absurd hfirst (by decide)
  exact cuts_nilAt.or hboolean (starts_wordAt 'n' _ _)
    ((starts_booleanAt.or (starts_numericAt.or starts_markedAt)).disjoint (by decide))

/-- The end of a range starts as a number does or with the mark of a character. -/
lemma starts_endpointAt : endpointAt.Starts fun c => numericFirst c || c == '\x60' :=
  starts_integerAt.or starts_characterAt

/-- The end of a range is read in front of other characters as on its own. -/
lemma cuts_endpointAt : endpointAt.Cuts := by
  refine cuts_integerAt.or cuts_characterAt starts_integerAt ?_
  intro cs v rest h c hc
  rw [eq_of_beq (starts_characterAt.head h hc)]
  decide

end Packrat.Program
