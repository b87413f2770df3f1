import Packrat.Proofs.Program.Spelled
set_option autoImplicit false
set_option relaxedAutoImplicit false

/-!
# What objects start with

The first character tells simple objects from hashes and lists, and tells most kinds of simple
objects from each other.

## Main definitions

* `Packrat.Program.objectFirst` — what objects start with.

## Main results

* `Packrat.Program.starts_objectAt`, `Packrat.Program.Spells.head` — the first character of an
  object.
* `Packrat.Program.simpleAt_of_endpointAt` — when the end of a range is a simple object.
* `Packrat.Program.Spells.induction_endsLine` — induction on an object that ends its line.
-/

namespace Packrat.Program

/-- What objects start with. -/
def objectFirst (c : Char) : Bool := simpleFirst c || (c == '\x7b' || c == '[')

/-! ## First characters -/

/-- Nothing is read that starts with another character. -/
lemma Reader.Starts.eq_none {read : Reader} {first : Char → Bool} (h : read.Starts first)
    {cs : List Char} (hcs : ∀ c ∈ cs.head?, first c = false) : read cs = none := by
  refine Option.eq_none_iff_forall_ne_some.2 fun ⟨v, rest⟩ hread => ?_
  obtain ⟨c, hc, hfirst⟩ := h cs v rest hread
  exact absurd hfirst (by simp [hcs c hc])

/-- What the end of a range starts with starts a simple object. -/
lemma simpleFirst_of_endpoint {c : Char} (h : (numericFirst c || c == '\x60') = true) :
    simpleFirst c = true := by
  rcases Bool.or_eq_true_iff.1 h with h | h
  · simp [simpleFirst, h]
  · rw [eq_of_beq h]
    decide

/-- A pair starts as its key does. -/
lemma starts_keyValueWith (inner : Reader) : (keyValueWith inner).Starts simpleFirst := by
  intro cs v rest h
  simp only [keyValueWith, bind, Option.bind_eq_some_iff] at h
  obtain ⟨⟨k, left⟩, hkey, -⟩ := h
  exact starts_simpleAt cs k left hkey

/-- A range starts as simple objects do. -/
lemma starts_rangeAt : rangeAt.Starts simpleFirst := by
  intro cs v rest h
  simp only [rangeAt, bind, Option.bind_eq_some_iff] at h
  obtain ⟨⟨start, left⟩, hstart, -⟩ := h
  obtain ⟨c, hc, hfirst⟩ := starts_endpointAt cs start left hstart
  exact ⟨c, hc, simpleFirst_of_endpoint hfirst⟩

/-- Nothing is read between marks where the first of them is not ahead. -/
lemma delimitedWith_eq_none {opening closing : Char} {element : Reader} {cs : List Char}
    (h : ∀ c ∈ cs.head?, (c == opening) = false) :
    delimitedWith opening closing element cs = none := by
  cases cs with
  | nil => rfl
  | cons c cs =>
    have hdrop : dropChar? (· == opening) (c :: cs) = none := by simp [dropChar?, h c rfl]
    simp only [delimitedWith, hdrop]
    rfl

/-- An object does not start with a blank. -/
lemma isBlank_of_objectFirst {c : Char} (h : objectFirst c = true) : isBlank c = false := by
  by_contra hblank
  rcases isBlank_iff.1 (by simpa using hblank) with rfl | rfl | rfl | rfl <;>
    exact absurd h (by decide)

/-- An object does not start with a space. -/
lemma isSpace_of_objectFirst {c : Char} (h : objectFirst c = true) : isSpace c = false := by
  have hblank := isBlank_of_objectFirst h
  simp only [isBlank, Bool.or_eq_false_iff] at hblank
  exact hblank.1

/-- What simple objects start with starts an object. -/
lemma objectFirst_of_simpleFirst {c : Char} (h : simpleFirst c = true) : objectFirst c = true := by
  simp [objectFirst, h]

/-- The reader of objects reads nothing that starts with another character. -/
lemma starts_objectAt : Reader.Starts objectAt objectFirst := by
  intro cs v rest h
  by_contra hnot
  have hfirst : ∀ c ∈ cs.head?, objectFirst c = false := by simpa using hnot
  have hsimple : ∀ c ∈ cs.head?, simpleFirst c = false := fun c hc =>
    (Bool.or_eq_false_iff.1 (hfirst c hc)).1
  have hmarks : ∀ c ∈ cs.head?, (c == '\x7b') = false ∧ (c == '[') = false := fun c hc =>
    Bool.or_eq_false_iff.1 (Bool.or_eq_false_iff.1 (hfirst c hc)).2
  have hnone : objectAt cs = none := by
    rw [objectAt_eq, objectWith, compositeWith, hashWith, listWith,
      (starts_keyValueWith objectAt).eq_none hsimple, starts_rangeAt.eq_none hsimple,
      starts_simpleAt.eq_none hsimple, delimitedWith_eq_none fun c hc => (hmarks c hc).1,
      delimitedWith_eq_none fun c hc => (hmarks c hc).2]
    rfl
  rw [hnone] at h
  cases h

/-- What spells a tree starts like an object. -/
lemma Spells.head {closed : Prop} {o : List Char} {v : Node} (h : Spells closed o v) :
    ∃ c ∈ o.head?, objectFirst c = true := by
  have happend : ∀ {a : List Char} (r : List Char), (∃ c ∈ a.head?, simpleFirst c = true) →
      ∃ c ∈ (a ++ r).head?, objectFirst c = true := by
    rintro a r ⟨c, hc, hfirst⟩
    obtain ⟨a, rfl⟩ := List.head?_eq_some_iff.1 hc
    exact ⟨c, rfl, objectFirst_of_simpleFirst hfirst⟩
  cases h with
  | simple ha _ =>
    have hstart := happend [] (starts_simpleAt _ _ _ (accepts_simpleObject.1 ha))
    rwa [List.append_nil] at hstart
  | keyValue ha _ _ _ _ => exact happend _ (starts_simpleAt _ _ _ (accepts_simpleObject.1 ha))
  | range ha _ _ _ _ =>
    obtain ⟨c, hc, hfirst⟩ := starts_endpointAt _ _ _ (accepts_endpoint.1 ha)
    exact happend _ ⟨c, hc, simpleFirst_of_endpoint hfirst⟩
  | hash hdelimited _ | list hdelimited =>
    obtain ⟨inside, rfl⟩ := hdelimited.shape
    exact ⟨_, rfl, by decide⟩

/-- An object has a character. -/
lemma Spells.ne_nil {closed : Prop} {o : List Char} {v : Node} (h : Spells closed o v) :
    o ≠ [] := by
  rintro rfl
  obtain ⟨c, hc, -⟩ := h.head
  cases hc

/-! ## Letters -/

/-- A letter does not come before the capitals. -/
lemma le_of_letterSet {c : Char} (h : letterSet.contains c = true) : 'A' ≤ c := by
  simp only [CharSet.contains, letterSet, List.any_cons, List.any_nil, Bool.or_false, Span.contains,
    Span.single, Bool.or_eq_true, decide_eq_true_eq] at h
  rcases h with ⟨hc, -⟩ | ⟨hc, -⟩ | ⟨hc, -⟩
  · exact Char.le_trans (by decide) hc
  · exact hc
  · exact Char.le_trans (by decide) hc

/-- Letters start no numbers, and none of the simple objects that start with a mark. -/
lemma numericFirst_of_letterSet {c : Char} (h : letterSet.contains c = true) :
    numericFirst c = false ∧ markFirst c = false := by
  have hle := le_of_letterSet h
  constructor
  · by_contra hfirst
    simp only [numericFirst, Bool.not_eq_false, Bool.or_eq_true, beq_iff_eq, CharSet.contains,
      digitSet, List.any_cons, List.any_nil, Bool.or_false, Span.contains,
      decide_eq_true_eq] at hfirst
    rcases hfirst with ((⟨-, hdigit⟩ | rfl) | rfl) | rfl
    · exact absurd (Char.le_trans hle hdigit) (by decide)
    · exact absurd hle (by decide)
    · exact absurd hle (by decide)
    · exact absurd hle (by decide)
  · by_contra hfirst
    simp only [markFirst, Bool.not_eq_false, Bool.or_eq_true, beq_iff_eq] at hfirst
    rcases hfirst with rfl | (rfl | rfl | rfl | rfl) | rfl <;> exact absurd h (by decide)

/-- What labels are made of are letters. -/
lemma letterSet_of_labelSet {c : Char} (h : labelSet.contains c = true) :
    letterSet.contains c = true := by
  simp only [CharSet.contains, labelSet, letterSet, List.any_cons, List.any_nil,
    Bool.or_false] at h ⊢
  rcases Bool.or_eq_true_iff.1 h with h | h <;> simp [h]

/-- No object starts with a capital letter or an underscore. -/
lemma labelSet_of_objectFirst {c : Char} (h : objectFirst c = true) :
    labelSet.contains c = false := by
  by_contra hlabel
  rw [Bool.not_eq_false] at hlabel
  obtain ⟨hnumeric, hmark⟩ := numericFirst_of_letterSet (letterSet_of_labelSet hlabel)
  simp only [objectFirst, simpleFirst, hnumeric, hmark, Bool.or_false, Bool.or_eq_true,
    beq_iff_eq] at h
  rcases h with (rfl | rfl | rfl) | rfl | rfl <;> exact absurd hlabel (by decide)

/-! ## Simple objects -/

/-- What is read as an end of a range is a simple object, unless it is the beginning of a number
with a point. -/
lemma simpleAt_of_endpointAt {cs left : List Char} {v : Node} (h : endpointAt cs = some (v, left)) :
    simpleAt cs = some (v, left) ∨
      ∃ d more, left = '.' :: d :: more ∧ digitSet.contains d = true := by
  rcases Option.or_eq_some_iff.1 h with hinteger | ⟨-, hcharacter⟩
  · have hfirst : ∀ c ∈ cs.head?, numericFirst c = true := fun c hc =>
      starts_integerAt.head hinteger hc
    have hnil : nilAt cs = none := by
      refine (starts_wordAt 'n' _ _).eq_none fun c hc => ?_
      rw [beq_eq_false_iff_ne]
      rintro rfl
      exact absurd (hfirst _ hc) (by decide)
    have hboolean : booleanAt cs = none := by
      refine starts_booleanAt.eq_none fun c hc => ?_
      rw [Bool.or_eq_false_iff, beq_eq_false_iff_ne, beq_eq_false_iff_ne]
      constructor <;> rintro rfl <;> exact absurd (hfirst _ hc) (by decide)
    cases hdecimal : decimalAt cs with
    | none =>
      left
      simp only [simpleAt, numericAt, hnil, hboolean, hdecimal, hinteger, Option.none_or,
        Option.some_or]
    | some result =>
      right
      simp only [integerAt, bind, Option.bind_eq_some_iff, Option.some.injEq,
        Prod.mk.injEq] at hinteger
      obtain ⟨_, hdigits, -, rfl⟩ := hinteger
      simp only [decimalAt, hdigits, Option.getD_some, bind, Option.bind_eq_some_iff,
        dropChar?_eq_some, beq_iff_eq] at hdecimal
      obtain ⟨point, ⟨_, rfl, hpoint⟩, rest, hfraction, -⟩ := hdecimal
      obtain ⟨a, ⟨hd, hmore⟩, rfl, -⟩ := dropDigits?_eq_some.1 hfraction
      exact ⟨_, _, hpoint, hd⟩
  · left
    have hmark : ∀ d ∈ cs.head?, d = '\x60' := fun d hd =>
      eq_of_beq (starts_characterAt.head hcharacter hd)
    have hnil : nilAt cs = none := (starts_wordAt 'n' _ _).eq_none fun d hd => by
      rw [hmark d hd]
      decide
    have hboolean : booleanAt cs = none := starts_booleanAt.eq_none fun d hd => by
      rw [hmark d hd]
      decide
    have hnumeric : numericAt cs = none := starts_numericAt.eq_none fun d hd => by
      rw [hmark d hd]
      decide
    simp only [simpleAt, hnil, hboolean, hnumeric, hcharacter, Option.none_or, Option.some_or]

/-- A simple object that starts with the mark of a document is a document. -/
lemma simpleAt_eq_hereDocAt {o : List Char} (hmark : o.head? = some '<') :
    simpleAt o = hereDocAt o := by
  have hhead : ∀ {first : Char → Bool}, first '<' = false → ∀ c ∈ o.head?, first c = false := by
    intro first hfirst c hc
    rwa [Option.some.inj (hc.symm.trans hmark)]
  have hnil : nilAt o = none := (starts_wordAt 'n' _ _).eq_none (hhead (by decide))
  have hboolean : booleanAt o = none := starts_booleanAt.eq_none (hhead (by decide))
  have hnumeric : numericAt o = none := starts_numericAt.eq_none (hhead (by decide))
  have hcharacter : characterAt o = none := starts_characterAt.eq_none (hhead (by decide))
  have hsymbol : symbolAt o = none := starts_symbolAt.eq_none (hhead (by decide))
  have hsingle : quotedAt '\x27' .string o = none :=
    (starts_quotedAt _ _).eq_none (hhead (by decide))
  have hdouble : quotedAt '\x22' .string o = none :=
    (starts_quotedAt _ _).eq_none (hhead (by decide))
  have hregex : regexAt o = none := (starts_quotedAt _ _).eq_none (hhead (by decide))
  simp only [simpleAt, stringAt, hnil, hboolean, hnumeric, hcharacter, hsymbol, hsingle, hdouble,
    hregex, Option.none_or, Option.or_none]

/-- A simple object that starts with a colon is a symbol. -/
lemma simpleAt_eq_symbolAt (q : List Char) : simpleAt (':' :: q) = symbolAt (':' :: q) := by
  have hhead : ∀ {first : Char → Bool}, first ':' = false →
      ∀ c ∈ (':' :: q).head?, first c = false := by
    intro first hfirst c hc
    rwa [← Option.some.inj hc]
  have hnil : nilAt (':' :: q) = none := (starts_wordAt 'n' _ _).eq_none (hhead (by decide))
  have hboolean : booleanAt (':' :: q) = none := starts_booleanAt.eq_none (hhead (by decide))
  have hnumeric : numericAt (':' :: q) = none := starts_numericAt.eq_none (hhead (by decide))
  have hcharacter : characterAt (':' :: q) = none := starts_characterAt.eq_none (hhead (by decide))
  have hsingle : quotedAt '\x27' .string (':' :: q) = none :=
    (starts_quotedAt _ _).eq_none (hhead (by decide))
  have hdouble : quotedAt '\x22' .string (':' :: q) = none :=
    (starts_quotedAt _ _).eq_none (hhead (by decide))
  have hhere : hereDocAt (':' :: q) = none := starts_hereDocAt.eq_none (hhead (by decide))
  have hregex : regexAt (':' :: q) = none := (starts_quotedAt _ _).eq_none (hhead (by decide))
  simp only [simpleAt, stringAt, hnil, hboolean, hnumeric, hcharacter, hsingle, hdouble, hhere,
    hregex, Option.none_or, Option.or_none]

/-- What starts with the mark of a document is one. -/
lemma hereDocAt_of_head {o : List Char} {v : Node} (h : simpleAt o = some (v, []))
    (hmark : o.head? = some '<') : hereDocAt o = some (v, []) := by
  rwa [← simpleAt_eq_hereDocAt hmark]

/-- A document is a simple object. -/
lemma simpleAt_of_hereDocAt {cs rest : List Char} {v : Node} (h : hereDocAt cs = some (v, rest)) :
    simpleAt cs = some (v, rest) := by
  obtain ⟨c, hc, hfirst⟩ := starts_hereDocAt cs v rest h
  rw [eq_of_beq hfirst] at hc
  rwa [simpleAt_eq_hereDocAt hc]

/-! ## Objects that end their line -/

/-- Induction on an object that ends its line: it is a document, or a pair whose value ends its
line. -/
@[elab_as_elim]
theorem Spells.induction_endsLine {closed : Prop}
    {motive : ∀ (o : List Char) (v : Node), Spells closed o v → EndsLine o → Prop}
    (document : ∀ {o v}, hereDocAt o = some (v, []) → ∀ (h : Spells closed o v)
      (hline : EndsLine o), motive o v h hline)
    (value : ∀ {a pad pad' b k w} (ha : Accepts .simpleObject a k)
      (hclosed : Accepts .hereDoc a k → EndsLine a) (hpad : Spaces pad) (hpad' : Spaces pad')
      (hb : Spells closed b w) (hline : EndsLine b), motive b w hb hline →
      motive _ _ (.keyValue ha hclosed hpad hpad' hb) ((endsLine_pair hb.ne_nil).2 hline))
    {o : List Char} {v : Node} (h : Spells closed o v) (hline : EndsLine o) : motive o v h hline := by
  induction h using Spells.induction_value with
  | @simple o v ha hclosed =>
    have hread := accepts_simpleObject.1 ha
    exact document (hereDocAt_of_head hread (cuts_simpleAt.line o v hread hline)) _ hline
  | keyValue ha hclosed hpad hpad' hb ih =>
    have hvalue := (endsLine_pair hb.ne_nil).1 hline
    exact value ha hclosed hpad hpad' hb hvalue (ih hvalue)
  | range ha hpad hx hpad' hb =>
    exact absurd hline (not_endsLine_range (accepts_endpoint.1 hb) _ _ _ _)
  | hash hpairs hall => exact absurd hline (hpairs.not_endsLine (by decide))
  | list hitems => exact absurd hline (hitems.not_endsLine (by decide))

end Packrat.Program
