import Packrat.Proofs.Program.Rows
set_option autoImplicit false
set_option relaxedAutoImplicit false

/-!
# What is read is spelled

Whatever the reader of objects reads, the characters that it takes spell the tree that it gives.

## Main definitions

* `Packrat.Program.Found` — what there is to know about an object that is read.

## Main results

* `Packrat.Program.exists_found` — what is read is spelled.
-/

namespace Packrat.Program

/-- The characters are those of an object, and the rest is what the reader of objects leaves behind
it.

* `behind` — a document that ends with a carriage return has taken in a line feed that follows.
* `key` — a document at the end would have been the key of a value, had there been one. -/
structure Found (o rest : List Char) (v : Node) : Prop where
  ne_nil : o ≠ []
  spells : Spells (rest ≠ []) o v
  behind : behind o rest = rest
  key : EndsLine o → ∀ q, rest.dropWhile isSpace = ':' :: q → objectAt (q.dropWhile isSpace) = none

/-- The reader reads objects, off fewer characters than so many. -/
def FindsBelow (size : Nat) (read : Reader) : Prop :=
  ∀ cs v rest, cs.length < size → read cs = some (v, rest) → ∃ o, cs = o ++ rest ∧ Found o rest v

/-- What stands in front of an object changes nothing about its end. -/
lemma Found.prepend {b rest : List Char} {w : Node} (h : Found b rest w) {a : List Char} {v : Node}
    (hs : Spells (rest ≠ []) (a ++ b) v) : Found (a ++ b) rest v where
  ne_nil := by simp [h.ne_nil]
  spells := hs
  behind := by rw [behind_append_left h.ne_nil, h.behind]
  key hline := h.key ((endsLine_append h.ne_nil).1 hline)

/-- An object that does not end with a line break takes in nothing that follows. -/
lemma Found.of_not_endsLine {o rest : List Char} {v : Node} (hne : o ≠ [])
    (hs : Spells (rest ≠ []) o v) (hline : ¬ EndsLine o) : Found o rest v where
  ne_nil := hne
  spells := hs
  behind := behind_of_not_endsLine hline rest
  key h := absurd h hline

/-! ## Simple objects -/

/-- A document with anything behind it ends with a line break. -/
lemma endsLine_of_hereDoc {a rest : List Char} {v : Node}
    (hmark : rest ≠ [] → a.head? = some '<' → EndsLine a) (hne : rest ≠ [])
    (h : Accepts .hereDoc a v) : EndsLine a := by
  obtain ⟨label, b, body, -, -, -, rfl, -⟩ := hereDocAt_eq_some.1 (accepts_hereDoc.1 h)
  exact hmark hne rfl

/-- A simple object is read up to its end. -/
lemma simpleAt_found {cs rest : List Char} {v : Node} (h : simpleAt cs = some (v, rest))
    (hkey : keyValueWith objectAt cs = none) : ∃ o, cs = o ++ rest ∧ Found o rest v := by
  obtain ⟨a, hne, rfl, ha, hbehind, hmark⟩ := cuts_simpleAt.alone cs v rest h
  refine ⟨a, rfl, hne, .simple (accepts_simpleObject.2 ha) (endsLine_of_hereDoc hmark), hbehind, ?_⟩
  intro _ q hq
  have hcolon : dropChar? (· == ':') (':' :: q) = some q := rfl
  simp only [keyValueWith, h, bind, Option.bind_some, hq, hcolon, Option.bind_eq_none_iff] at hkey
  refine Option.eq_none_iff_forall_ne_some.2 fun result hobject => ?_
  have hnone := hkey result hobject
  cases hnone

/-- An end of a range is an integer or a character. -/
lemma accepts_endpoint {cs : List Char} {v : Node} :
    (Accepts .integer cs v ∨ Accepts .character cs v) ↔ endpointAt cs = some (v, []) := by
  rw [accepts_integer, accepts_character, endpointAt, Option.or_eq_some_iff]
  refine or_congr_right ⟨fun h => ⟨?_, h⟩, fun h => h.2⟩
  refine Option.eq_none_iff_forall_ne_some.2 fun read hinteger => ?_
  obtain ⟨c, -, rfl, -⟩ := characterAt_eq_some.1 h
  have hfirst := starts_integerAt.head hinteger rfl
  exact absurd hfirst (by decide)

/-- The end of a range does not end with a line break. -/
lemma not_endsLine_of_endpointAt {cs : List Char} {v : Node} (h : endpointAt cs = some (v, [])) :
    ¬ EndsLine cs := fun hline =>
  absurd (starts_endpointAt.head h (cuts_endpointAt.line cs v h hline)) (by decide)

/-- The end of a range has a character. -/
lemma ne_nil_of_endpointAt {cs rest : List Char} {v : Node} (h : endpointAt cs = some (v, rest)) :
    cs ≠ [] := by
  rintro rfl
  obtain ⟨c, hc, -⟩ := starts_endpointAt _ _ _ h
  cases hc

/-- A range does not end with a line break. -/
lemma not_endsLine_range {b : List Char} {stop : Node} (hb : endpointAt b = some (stop, []))
    (a pad point pad' : List Char) :
    ¬ EndsLine (a ++ (pad ++ '.' :: '.' :: (point ++ (pad' ++ b)))) := by
  have hassoc : a ++ (pad ++ '.' :: '.' :: (point ++ (pad' ++ b))) =
    (a ++ pad ++ '.' :: '.' :: (point ++ pad')) ++ b := by simp
  rw [hassoc, endsLine_append (ne_nil_of_endpointAt hb)]
  exact not_endsLine_of_endpointAt hb

/-! ## Composite objects -/

/-- A pair is what stands in front of its value, and the value. -/
lemma pair_eq_append (a pad pad' b : List Char) :
    a ++ (pad ++ ':' :: (pad' ++ b)) = (a ++ pad ++ ':' :: pad') ++ b := by
  simp

/-- What stands behind a pair stands behind its value. -/
lemma pair_append (a pad pad' b r : List Char) :
    a ++ (pad ++ ':' :: (pad' ++ b)) ++ r = a ++ (pad ++ ':' :: (pad' ++ (b ++ r))) := by
  simp

/-- A pair ends its line just if its value does. -/
lemma endsLine_pair {a pad pad' b : List Char} (hb : b ≠ []) :
    EndsLine (a ++ (pad ++ ':' :: (pad' ++ b))) ↔ EndsLine b := by
  rw [pair_eq_append, endsLine_append hb]

/-- What a reader of keys and values takes is a key and a value. -/
lemma keyValueWith_found {cs rest : List Char} {v : Node} (ih : FindsBelow cs.length objectAt)
    (h : keyValueWith objectAt cs = some (v, rest)) :
    ∃ o, cs = o ++ rest ∧ Found o rest v ∧ ∃ k w, v = .keyValue k w := by
  simp only [keyValueWith, bind, Option.bind_eq_some_iff, dropChar?_eq_some, beq_iff_eq,
    Option.some.injEq, Prod.mk.injEq] at h
  obtain ⟨⟨k, left⟩, hkey, more, ⟨_, rfl, hcolon⟩, ⟨w, _⟩, hvalue, rfl, rfl⟩ := h
  obtain ⟨a, hne, rfl, ha, -, hmark⟩ := cuts_simpleAt.alone cs k left hkey
  obtain ⟨pad, hpad, hleft⟩ := exists_spaces left
  obtain ⟨pad', hpad', hmore⟩ := exists_spaces more
  rw [hcolon] at hleft
  have hlt : (more.dropWhile isSpace).length < (a ++ left).length := by
    have hle := length_dropWhile_le isSpace more
    rw [hleft, List.length_append, List.length_append, List.length_cons]
    omega
  obtain ⟨b, hb, hfound⟩ := ih _ w _ hlt hvalue
  refine ⟨a ++ (pad ++ ':' :: (pad' ++ b)), ?_, ?_, k, w, rfl⟩
  · conv_lhs => rw [hleft, hmore, hb]
    simp
  · have hclosed : Accepts .hereDoc a k → EndsLine a := endsLine_of_hereDoc hmark (by simp [hleft])
    have hspells := Spells.keyValue (accepts_simpleObject.2 ha) hclosed hpad hpad' hfound.spells
    rw [pair_eq_append] at hspells ⊢
    exact hfound.prepend hspells

/-- What a reader of ranges takes is a range. -/
lemma rangeAt_found {cs rest : List Char} {v : Node} (h : rangeAt cs = some (v, rest)) :
    ∃ o, cs = o ++ rest ∧ Found o rest v := by
  simp only [rangeAt, bind, Option.bind_eq_some_iff, dropPrefix?_eq_some, Option.some.injEq,
    Prod.mk.injEq] at h
  obtain ⟨⟨start, left⟩, hstart, more, hpoints, ⟨stop, left'⟩, hstop, rfl, hrest⟩ := h
  obtain rfl : left' = rest := hrest
  obtain ⟨a, hne, rfl, ha, -, -⟩ := cuts_endpointAt.alone _ _ _ hstart
  obtain ⟨b, -, hb, hb', -, -⟩ := cuts_endpointAt.alone _ _ _ hstop
  obtain ⟨pad, hpad, hleft⟩ := exists_spaces left
  obtain ⟨pad', hpad', hmore⟩ := exists_spaces (exclusivityAt more).2
  obtain ⟨point, hpoint, hx⟩ : ∃ point, more = point ++ (exclusivityAt more).2 ∧
      ((exclusivityAt more).1 = none ∧ point = [] ∨
        (exclusivityAt more).1 = some "." ∧ point = ['.']) := by
    fun_cases exclusivityAt more with
    | case1 cs => exact ⟨['.'], rfl, .inr ⟨rfl, rfl⟩⟩
    | case2 => exact ⟨[], rfl, .inl ⟨rfl, rfl⟩⟩
  have hspells : Spells (left' ≠ []) (a ++ (pad ++ '.' :: '.' :: (point ++ (pad' ++ b))))
      (.range start stop (exclusivityAt more).1) :=
    .range (accepts_endpoint.2 ha) hpad hx hpad' (accepts_endpoint.2 hb')
  refine ⟨_, ?_, .of_not_endsLine (by simp [hne]) hspells (not_endsLine_range hb' _ _ _ _)⟩
  rw [hpoints] at hleft
  rw [hleft, hpoint, hmore, hb]
  simp

section

variable {Element : List Char → Node → Prop} {P : Node → Prop} {opening closing : Char}
  {cs : List Char} {vs : List Node}

/-- A row of elements with a property is a row of elements, and all of them have it. -/
lemma Row.and_iff :
    Row (fun a v => Element a v ∧ P v) cs vs ↔ Row Element cs vs ∧ ∀ v ∈ vs, P v := by
  constructor
  · intro h
    induction h with
    | single helement => exact ⟨.single helement.1, by simpa using helement.2⟩
    | comma helement hs hs' _ ih =>
      exact ⟨.comma helement.1 hs hs' ih.1, List.forall_mem_cons.2 ⟨helement.2, ih.2⟩⟩
  · rintro ⟨h, hp⟩
    induction h with
    | single helement => exact .single ⟨helement, hp _ (by simp)⟩
    | comma helement hs hs' _ ih =>
      obtain ⟨hfirst, hothers⟩ := List.forall_mem_cons.1 hp
      exact .comma ⟨helement, hfirst⟩ hs hs' (ih hothers)

/-- Elements with a property stand between marks if elements do, and all of them have it. -/
lemma Delimited.and_iff :
    Delimited (fun a v => Element a v ∧ P v) opening closing cs vs ↔
      Delimited Element opening closing cs vs ∧ ∀ v ∈ vs, P v := by
  constructor
  · rintro (hs | ⟨hs, hs', hrow⟩)
    · exact ⟨.empty hs, by simp⟩
    · exact ⟨.row hs hs' (Row.and_iff.1 hrow).1, (Row.and_iff.1 hrow).2⟩
  · rintro ⟨hs | ⟨hs, hs', hrow⟩, hp⟩
    · exact .empty hs
    · exact .row hs hs' (Row.and_iff.2 ⟨hrow, hp⟩)

/-- Elements between marks end with the second mark. -/
lemma Delimited.shape (h : Delimited Element opening closing cs vs) :
    ∃ inside, cs = opening :: (inside ++ [closing]) := by
  rcases h with hs | ⟨hs, hs', hrow⟩
  · exact ⟨_, rfl⟩
  · exact ⟨_, by rw [List.append_assoc, List.append_assoc]⟩

/-- What stands between marks does not end with a line break. -/
lemma Delimited.not_endsLine (h : Delimited Element opening closing cs vs)
    (hclosing : endsLine closing = false) : ¬ EndsLine cs := by
  obtain ⟨inside, rfl⟩ := h.shape
  rw [← List.cons_append]
  exact not_endsLine_concat hclosing

/-- Elements between marks take in nothing that follows. -/
lemma Delimited.found (h : Delimited Element opening closing cs vs)
    (hclosing : endsLine closing = false) {rest : List Char} {v : Node}
    (hs : Spells (rest ≠ []) cs v) : Found cs rest v := by
  obtain ⟨inside, hcs⟩ := h.shape
  exact .of_not_endsLine (by simp [hcs]) hs (h.not_endsLine hclosing)

end

/-- What a reader of hashes takes is a hash. -/
lemma hashWith_found {cs rest : List Char} {v : Node} (ih : FindsBelow cs.length objectAt)
    (h : hashWith objectAt cs = some (v, rest)) : ∃ o, cs = o ++ rest ∧ Found o rest v := by
  obtain ⟨⟨pairs, left⟩, hread, heq⟩ := Option.map_eq_some_iff.1 h
  cases heq
  have hpairs : ReadsOnly cs.length (keyValueWith objectAt)
      fun a v => Spells True a v ∧ ∃ k w, v = .keyValue k w := by
    intro inside v rest hlt hpair hne
    have hbelow : FindsBelow inside.length objectAt :=
      fun more w left hmore hobject => ih more w left (hmore.trans hlt) hobject
    obtain ⟨a, ha, hfound, hpair⟩ := keyValueWith_found hbelow hpair
    have hspells := hfound.spells
    rw [eq_true hne] at hspells
    exact ⟨a, ha, hspells, hpair⟩
  obtain ⟨o, ho, hdelimited⟩ :=
    exists_delimited (advances_keyValueWith advances_objectAt) hpairs hread
  obtain ⟨hrow, hall⟩ := Delimited.and_iff.1 hdelimited
  exact ⟨o, ho, hrow.found (by decide) (.hash hrow hall)⟩

/-- What a reader of lists takes is a list. -/
lemma listWith_found {cs rest : List Char} {v : Node} (ih : FindsBelow cs.length objectAt)
    (h : listWith objectAt cs = some (v, rest)) : ∃ o, cs = o ++ rest ∧ Found o rest v := by
  obtain ⟨⟨items, left⟩, hread, heq⟩ := Option.map_eq_some_iff.1 h
  cases heq
  have hitems : ReadsOnly cs.length objectAt (Spells True) := by
    intro inside v rest hlt hobject hne
    obtain ⟨a, ha, hfound⟩ := ih inside v rest hlt hobject
    have hspells := hfound.spells
    rw [eq_true hne] at hspells
    exact ⟨a, ha, hspells⟩
  obtain ⟨o, ho, hdelimited⟩ := exists_delimited advances_objectAt hitems hread
  exact ⟨o, ho, hdelimited.found (by decide) (.list hdelimited)⟩

/-- Whatever the reader of objects reads, the characters that it takes spell the tree that it gives.

**Proof sketch.** Induction on the characters ahead: every object inside is read off fewer of
them. -/
theorem exists_found {cs rest : List Char} {v : Node} (h : objectAt cs = some (v, rest)) :
    ∃ o, cs = o ++ rest ∧ Found o rest v := by
  have ih : FindsBelow cs.length objectAt := fun more w left hlt hread => exists_found hread
  rw [objectAt_eq, objectWith, compositeWith] at h
  rcases Option.or_eq_some_iff.1 h with hcomposite | ⟨hnone, hsimple⟩
  · rcases Option.or_eq_some_iff.1 hcomposite with hpair | ⟨-, hothers⟩
    · obtain ⟨o, ho, hfound, -⟩ := keyValueWith_found ih hpair
      exact ⟨o, ho, hfound⟩
    · rcases Option.or_eq_some_iff.1 hothers with hrange | ⟨-, hothers⟩
      · exact rangeAt_found hrange
      · rcases Option.or_eq_some_iff.1 hothers with hhash | ⟨-, hlist⟩
        · exact hashWith_found ih hhash
        · exact listWith_found ih hlist
  · exact simpleAt_found hsimple (Option.or_eq_none_iff.1 hnone).1
termination_by cs.length

end Packrat.Program
