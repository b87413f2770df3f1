import Packrat.Proofs.Program.Steps
set_option autoImplicit false
set_option relaxedAutoImplicit false

/-!
# Trees of accepted programs

What a program is read as is well formed: comments stand at its top level only, keys and the ends of
ranges are simple objects, the elements of a hash are pairs, and the texts in the leaves have the
form in which they are written.

## Main definitions

* `Packrat.Program.IsSimple`, `Packrat.Program.IsObject`, `Packrat.Program.IsStatement` —
  well-formed trees.

## Main results

* `Packrat.Program.gives_objectAt` — the trees that are read as objects.
* `Packrat.Program.wellFormed_of_parse` — the trees of accepted programs.
-/

namespace Packrat.Program

/-! ## Well-formed trees -/

/-- The sign of a number is a plus, a minus or none. -/
def IsSign (sign : Option String) : Prop := sign = none ∨ sign = some "+" ∨ sign = some "-"

/-- The tree of a simple object. -/
inductive IsSimple : Node → Prop
  | nil : IsSimple .nil
  | bool (value : Bool) : IsSimple (.bool value)
  | integer {digits : List Char} {sign : Option String} (hdigits : Digits digits)
      (hsign : IsSign sign) : IsSimple (.integer (String.ofList digits) sign)
  /-- There need not be digits in front of the point. -/
  | decimal {whole fraction : List Char} {sign : Option String}
      (hwhole : whole = [] ∨ Digits whole) (hfraction : Digits fraction) (hsign : IsSign sign) :
      IsSimple (.decimal (String.ofList (whole ++ '.' :: fraction)) sign)
  | character {c : Char} (hc : wordSet.contains c = true) :
      IsSimple (.character (String.singleton c))
  | string (text : String) : IsSimple (.string text)
  | regex {pattern : String} (hpattern : '/' ∉ pattern.toList) : IsSimple (.regex pattern)

/-- The tree of an end of a range: an integer or a character. -/
inductive IsEndpoint : Node → Prop
  | integer {digits : String} {sign : Option String} (h : IsSimple (.integer digits sign)) :
      IsEndpoint (.integer digits sign)
  | character {char : String} (h : IsSimple (.character char)) : IsEndpoint (.character char)

/-- The tree of a key and its value. -/
def IsPair (v : Node) : Prop := ∃ key value, v = .keyValue key value

/-- The tree of an object. There are no comments and no programs in it. -/
inductive IsObject : Node → Prop
  | simple {v : Node} (h : IsSimple v) : IsObject v
  | keyValue {key value : Node} (hkey : IsSimple key) (hvalue : IsObject value) :
      IsObject (.keyValue key value)
  | range {start stop : Node} {exclusivity : Option String} (hstart : IsEndpoint start)
      (hstop : IsEndpoint stop) (hpoint : exclusivity = none ∨ exclusivity = some ".") :
      IsObject (.range start stop exclusivity)
  | hash {pairs : List Node} (hpairs : ∀ pair ∈ pairs, IsPair pair)
      (hobjects : ∀ pair ∈ pairs, IsObject pair) : IsObject (.hash pairs)
  | list {items : List Node} (hitems : ∀ item ∈ items, IsObject item) : IsObject (.list items)

/-- The tree of a statement: an object, or a comment, which goes up to the end of its line. -/
inductive IsStatement : Node → Prop
  | comment {text : String} (htext : WithinLine text.toList) : IsStatement (.comment text)
  | object {v : Node} (h : IsObject v) : IsStatement v

/-! ## What readers give -/

/-- All that the reader reads has the property. -/
def Reader.Gives (read : Reader) (P : Node → Prop) : Prop :=
  ∀ cs v rest, read cs = some (v, rest) → P v

section

variable {P Q : Node → Prop} {read other : Reader}

/-- What gives nodes with a property gives nodes with any weaker one. -/
lemma Reader.Gives.mono (h : read.Gives P) (hPQ : ∀ v, P v → Q v) : read.Gives Q :=
  fun cs v rest hread => hPQ v (h cs v rest hread)

/-- Two readers that give nodes with a property do so one after the other. -/
lemma Reader.Gives.or (h : read.Gives P) (h' : other.Gives P) :
    Reader.Gives (fun cs => (read cs).or (other cs)) P := by
  intro cs v rest hread
  rcases Option.or_eq_some_iff.1 hread with hread | ⟨-, hread⟩
  · exact h cs v rest hread
  · exact h' cs v rest hread

/-- Steps that are taken one behind the other have a property that each step has. -/
lemma forall_mem_many {β : Type} {step : List Char → Option (β × List Char)} {R : β → Prop}
    (h : ∀ cs b rest, step cs = some (b, rest) → R b) (cs : List Char) :
    ∀ b ∈ (many step cs).1, R b := by
  fun_induction many step cs with
  | case1 cs hs => simp
  | case2 cs b rest hs hlt ih => exact List.forall_mem_cons.2 ⟨h cs b rest hs, ih⟩
  | case3 cs b rest hs hnot => simpa using h cs b rest hs

end

/-! ## Simple objects -/

/-- The sign of a number is a plus, a minus, or missing. -/
lemma isSign_of_signText {sign : Option String} {p : List Char} (h : SignText sign p) :
    IsSign sign := by
  cases h with
  | none => exact .inl rfl
  | plus => exact .inr (.inl rfl)
  | minus => exact .inr (.inr rfl)

/-- A word gives its node, which is simple. -/
lemma gives_wordAt (word : List Char) {node : Node} (h : IsSimple node) :
    (wordAt word node).Gives IsSimple := by
  intro cs v rest hread
  obtain ⟨_, -, heq⟩ := Option.map_eq_some_iff.1 hread
  cases heq
  exact h

/-- A number without a point is an end of a range and a simple object. -/
lemma gives_integerAt : integerAt.Gives fun v => IsEndpoint v ∧ IsSimple v := by
  intro cs v rest hread
  obtain ⟨sign, p, digits, hp, hdigits, -, -, rfl⟩ := integerAt_eq_some.1 hread
  have h : IsSimple (.integer (String.ofList digits) sign) :=
    .integer hdigits (isSign_of_signText hp)
  exact ⟨.integer h, h⟩

/-- A character is an end of a range and a simple object. -/
lemma gives_characterAt : characterAt.Gives fun v => IsEndpoint v ∧ IsSimple v := by
  intro cs v rest hread
  obtain ⟨c, hc, -, rfl⟩ := characterAt_eq_some.1 hread
  have h : IsSimple (.character (String.singleton c)) := .character hc
  exact ⟨.character h, h⟩

/-- What is read at the end of a range is an end of one. -/
lemma gives_endpointAt : endpointAt.Gives IsEndpoint :=
  (gives_integerAt.mono fun _ => And.left).or (gives_characterAt.mono fun _ => And.left)

/-- A number with a point is a simple object. -/
lemma gives_decimalAt : decimalAt.Gives IsSimple := by
  intro cs v rest hread
  obtain ⟨sign, p, whole, fraction, hp, hwhole, hfraction, -, -, rfl⟩ := decimalAt_eq_some.1 hread
  exact .decimal hwhole hfraction (isSign_of_signText hp)

/-- A symbol is a simple object. -/
lemma gives_symbolAt : symbolAt.Gives IsSimple := by
  intro cs v rest hread
  obtain ⟨name, -, -, -, -, rfl⟩ := symbolAt_eq_some.1 hread
  exact .string _

/-- A document is a simple object. -/
lemma gives_hereDocAt : hereDocAt.Gives IsSimple := by
  intro cs v rest hread
  obtain ⟨label, b, body, -, -, -, -, -, rfl⟩ := hereDocAt_eq_some.1 hread
  exact .string _

/-- A string between quotation marks is a simple object. -/
lemma gives_quotedString (mark : Char) : (quotedAt mark .string).Gives IsSimple := by
  intro cs v rest hread
  obtain ⟨body, -, -, rfl⟩ := quotedAt_eq_some.1 hread
  exact .string _

/-- A regular expression is a simple object. -/
lemma gives_regexAt : regexAt.Gives IsSimple := by
  intro cs v rest hread
  obtain ⟨body, hbody, -, rfl⟩ := quotedAt_eq_some.1 hread
  refine .regex fun hmem => ?_
  rw [String.toList_ofList] at hmem
  exact hbody hmem

/-- What is read as a simple object is one. -/
lemma gives_simpleAt : simpleAt.Gives IsSimple := by
  have hboolean : booleanAt.Gives IsSimple :=
    (gives_wordAt _ (.bool true)).or (gives_wordAt _ (.bool false))
  have hnumeric : numericAt.Gives IsSimple :=
    gives_decimalAt.or (gives_integerAt.mono fun _ => And.right)
  have hstring : stringAt.Gives IsSimple :=
    gives_symbolAt.or ((gives_quotedString _).or ((gives_quotedString _).or gives_hereDocAt))
  exact (gives_wordAt _ .nil).or (hboolean.or (hnumeric.or
    ((gives_characterAt.mono fun _ => And.right).or (hstring.or gives_regexAt))))

/-! ## Composite objects -/

section

variable {inner : Reader}

/-- A pair has a simple key and an object as its value. -/
lemma gives_keyValueWith (h : inner.Gives IsObject) :
    (keyValueWith inner).Gives fun v => IsPair v ∧ IsObject v := by
  intro cs v rest hread
  simp only [keyValueWith, bind, Option.bind_eq_some_iff, Option.some.injEq, Prod.mk.injEq] at hread
  obtain ⟨⟨key, _⟩, hkey, _, -, ⟨value, _⟩, hvalue, rfl, -⟩ := hread
  exact ⟨⟨key, value, rfl⟩, .keyValue (gives_simpleAt _ _ _ hkey) (h _ _ _ hvalue)⟩

/-- What is read as a range is an object. -/
lemma gives_rangeAt : rangeAt.Gives IsObject := by
  intro cs v rest hread
  simp only [rangeAt, bind, Option.bind_eq_some_iff, Option.some.injEq, Prod.mk.injEq] at hread
  obtain ⟨⟨start, _⟩, hstart, points, -, ⟨stop, _⟩, hstop, rfl, -⟩ := hread
  refine .range (gives_endpointAt _ _ _ hstart) (gives_endpointAt _ _ _ hstop) ?_
  fun_cases exclusivityAt points with
  | case1 => exact .inr rfl
  | case2 => exact .inl rfl

/-- All elements of a row are such as their reader gives. -/
lemma forall_mem_elementsWith {P : Node → Prop} {element : Reader} (h : element.Gives P)
    (cs : List Char) : ∀ v ∈ (elementsWith element cs).1, P v := by
  have hcomma : ∀ cs v rest, commaThen element cs = some (v, rest) → P v := by
    intro cs v rest hread
    obtain ⟨_, -, helement⟩ := Option.bind_eq_some_iff.1 hread
    exact h _ _ _ helement
  fun_cases elementsWith element cs with
  | case1 => simp
  | case2 v rest hread =>
    exact List.forall_mem_cons.2 ⟨h cs v rest hread, forall_mem_many hcomma rest⟩

/-- All elements between marks are such as their reader gives. -/
lemma forall_mem_delimitedWith {P : Node → Prop} {element : Reader} (h : element.Gives P)
    {opening closing : Char} {cs rest : List Char} {nodes : List Node}
    (hread : delimitedWith opening closing element cs = some (nodes, rest)) : ∀ v ∈ nodes, P v := by
  simp only [delimitedWith, bind, Option.bind_eq_some_iff, Option.some.injEq,
    Prod.mk.injEq] at hread
  obtain ⟨inside, -, _, -, rfl, -⟩ := hread
  exact forall_mem_elementsWith h _

/-- A hash of pairs is an object. -/
lemma gives_hashWith (h : inner.Gives IsObject) : (hashWith inner).Gives IsObject := by
  intro cs v rest hread
  obtain ⟨⟨pairs, _⟩, hpairs, heq⟩ := Option.map_eq_some_iff.1 hread
  cases heq
  have hall := forall_mem_delimitedWith (gives_keyValueWith h) hpairs
  exact .hash (fun pair hmem => (hall pair hmem).1) fun pair hmem => (hall pair hmem).2

/-- A list of objects is an object. -/
lemma gives_listWith (h : inner.Gives IsObject) : (listWith inner).Gives IsObject := by
  intro cs v rest hread
  obtain ⟨⟨items, _⟩, hitems, heq⟩ := Option.map_eq_some_iff.1 hread
  cases heq
  exact .list (forall_mem_delimitedWith h hitems)

/-- What is read as an object is one, if the objects in it are. -/
lemma gives_objectWith (h : inner.Gives IsObject) : (objectWith inner).Gives IsObject := by
  have hpair := (gives_keyValueWith h).mono fun _ => And.right
  have hsimple := gives_simpleAt.mono fun _ => IsObject.simple
  exact (hpair.or (gives_rangeAt.or ((gives_hashWith h).or (gives_listWith h)))).or hsimple

end

/-- What is read as an object is the tree of one. -/
theorem gives_objectAt : Reader.Gives objectAt IsObject := by
  intro cs v rest hread
  rw [objectAt] at hread
  refine gives_objectWith (fun more w left hmore => ?_) cs v rest hread
  split at hmore
  · exact gives_objectAt more w left hmore
  · cases hmore
termination_by cs => cs.length

/-! ## Statements -/

/-- A comment is a statement, and its text lies within a line. -/
lemma gives_commentAt : commentAt.Gives IsStatement := by
  intro cs v rest hread
  obtain ⟨text, htext, rfl, -⟩ := commentAt_eq_some.1 hread
  exact .comment (by rwa [String.toList_ofList])

/-- An expression is a statement. -/
lemma gives_expressionAt : expressionAt.Gives IsStatement := by
  intro cs v rest hread
  obtain ⟨left, hobject, -⟩ := objectAt_of_expressionAt hread
  exact .object (gives_objectAt _ _ _ hobject)

/-- What is read as a statement and the comment behind it are statements. -/
lemma forall_mem_statementAt {cs rest : List Char} {nodes : List Node}
    (h : statementAt cs = some (nodes, rest)) : ∀ v ∈ nodes, IsStatement v := by
  rw [statementAt] at h
  split at h
  · rename_i comment _ hcomment
    cases h
    simpa using gives_commentAt _ _ _ hcomment
  · obtain ⟨⟨v, left⟩, hexpression, hend⟩ := Option.bind_eq_some_iff.1 h
    have hobject := gives_expressionAt _ _ _ hexpression
    simp only at hend
    split at hend
    · rename_i hcomment
      cases hend
      simpa using ⟨hobject, gives_commentAt _ _ _ hcomment⟩
    · cases hend
      simpa using hobject

/-- Every step gives statements. -/
lemma forall_mem_statementStep {cs rest : List Char} {nodes : List Node}
    (h : statementStep cs = some (nodes, rest)) : ∀ v ∈ nodes, IsStatement v := by
  rcases Option.or_eq_some_iff.1 h with h | ⟨-, h⟩
  · exact forall_mem_statementAt h
  · obtain ⟨_, -, heq⟩ := Option.map_eq_some_iff.1 h
    cases heq
    simp

/-- All that is read of a program are statements. -/
lemma forall_mem_statementsAt (cs : List Char) : ∀ v ∈ (statementsAt cs).1, IsStatement v := by
  intro v hv
  obtain ⟨nodes, hnodes, hv⟩ := List.mem_flatten.1 hv
  exact forall_mem_many (fun _ _ _ => forall_mem_statementStep) cs nodes hnodes v hv

/-- An accepted text is read as a program all of whose statements are well formed. -/
theorem wellFormed_of_parse {settings : Settings} {text : String} {result : Value Node}
    (h : grammar.parse settings (.named .program) text = .ok result) :
    ∃ statements, result = .object (.program statements) ∧ ∀ v ∈ statements, IsStatement v := by
  obtain ⟨statements, rfl, hread⟩ := statementsAt_of_parse h
  refine ⟨statements, rfl, ?_⟩
  obtain rfl : (statementsAt text.toList).1 = statements := congrArg Prod.fst hread
  exact forall_mem_statementsAt text.toList

/-- A list with a range and a pair in it, and a comment behind it. -/
theorem wellFormed_of_parse_list :
    grammar.parse {} (.named .program) "[+1..\x60z, 'a': -.5_0] # /" = .ok (.object (.program
        [.list [.range (.integer "1" (some "+")) (.character "z") none,
            .keyValue (.string "a") (.decimal ".5_0" (some "-"))],
          .comment " /"])) ∧
      ∃ statements, (Value.object (.program
          [.list [.range (.integer "1" (some "+")) (.character "z") none,
              .keyValue (.string "a") (.decimal ".5_0" (some "-"))],
            .comment " /"]) : Value Node) = .object (.program statements) ∧
        ∀ v ∈ statements, IsStatement v := by
  have h : Accepts .program "[+1..\x60z, 'a': -.5_0] # /".toList (.program
      [.list [.range (.integer "1" (some "+")) (.character "z") none,
          .keyValue (.string "a") (.decimal ".5_0" (some "-"))],
        .comment " /"]) := by decide +kernel
  rw [Accepts, String.ofList_toList] at h
  exact ⟨h, wellFormed_of_parse h⟩

end Packrat.Program
