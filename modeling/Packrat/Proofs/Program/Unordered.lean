import Packrat.Proofs.Program.Start
set_option autoImplicit false
set_option relaxedAutoImplicit false

/-!
# The order of alternatives does not matter

A text that spells a tree is read as that tree, and so it is in front of characters that do not
continue it. The grammar tries composite objects first, which costs nothing: where a simple object
is spelled, none of them matches.

## Main definitions

* `Packrat.Program.Ends` — nothing behind an object continues it.

## Main results

* `Packrat.Program.objectAt_append` — a text that spells a tree is read as it.
* `Packrat.Program.parse_object_iff_spells` — objects are accepted just as they are spelled.
-/

namespace Packrat.Program

/-- Nothing behind the object continues it: neither as a word or a number, nor as a range, nor as
the key of a value. -/
structure Ends (o r : List Char) : Prop where
  calm : r = [] ∨ EndsLine o ∨ (Calm r ∧ (r.dropWhile isSpace).dropPrefix? ['.', '.'] = none)
  key : ∀ q, (behind o r).dropWhile isSpace = ':' :: q → objectAt (q.dropWhile isSpace) = none

/-- Where a simple object is read up to its end, there is no range. -/
lemma rangeAt_eq_none {o r : List Char} {v : Node} (h : simpleAt (o ++ r) = some (v, behind o r))
    (he : Ends o r) : rangeAt (o ++ r) = none := by
  refine Option.eq_none_iff_forall_ne_some.2 fun ⟨w, rest⟩ hrange => ?_
  simp only [rangeAt, bind, Option.bind_eq_some_iff, dropPrefix?_eq_some] at hrange
  obtain ⟨⟨start, left⟩, hstart, more, hpoints, -⟩ := hrange
  rcases simpleAt_of_endpointAt hstart with hsimple | ⟨d, digits, rfl, hd⟩
  · rw [h] at hsimple
    obtain ⟨-, rfl⟩ := Prod.mk.inj (Option.some.inj hsimple)
    by_cases hline : EndsLine o
    · obtain ⟨a, -, ha, hread, -⟩ := cuts_endpointAt.alone _ _ _ hstart
      obtain ⟨b, hb, hends⟩ := exists_behind o r
      have hassoc : (o ++ b) ++ behind o r = a ++ behind o r := by
        rw [List.append_assoc, ← hb, ha]
      rw [← List.append_cancel_right hassoc] at hread
      exact not_endsLine_of_endpointAt hread (hends.2 hline)
    · rw [behind_of_not_endsLine hline] at hpoints
      rcases he.calm with rfl | hends | ⟨-, hnone⟩
      · cases hpoints
      · exact hline hends
      · rw [dropPrefix?_eq_some.2 hpoints] at hnone
        cases hnone
  · have hspace : ('.' :: d :: digits).dropWhile isSpace = '.' :: d :: digits := rfl
    rw [hspace] at hpoints
    cases hpoints
    exact absurd hd (by decide)

/-- What starts as simple objects do has no mark in front of elements. -/
lemma delimitedWith_simpleFirst {opening closing : Char} {element : Reader} {cs : List Char}
    (h : ∃ c ∈ cs.head?, simpleFirst c = true) (hopening : simpleFirst opening = false) :
    delimitedWith opening closing element cs = none := by
  obtain ⟨c, hc, hfirst⟩ := h
  refine delimitedWith_eq_none fun d hd => ?_
  rw [beq_eq_false_iff_ne]
  rintro rfl
  rw [Option.some.inj (hd.symm.trans hc), hfirst] at hopening
  cases hopening

/-- Nothing but a range or a pair starts like a simple object. -/
lemma objectAt_of_simpleFirst {cs : List Char} (h : ∃ c ∈ cs.head?, simpleFirst c = true) :
    objectAt cs = (keyValueWith objectAt cs).or ((rangeAt cs).or (simpleAt cs)) := by
  have hhash : hashWith objectAt cs = none :=
    Option.map_eq_none_iff.2 (delimitedWith_simpleFirst h (by decide))
  have hlist : listWith objectAt cs = none :=
    Option.map_eq_none_iff.2 (delimitedWith_simpleFirst h (by decide))
  rw [objectAt_eq, objectWith, compositeWith, hhash, hlist, Option.or_none, Option.or_none,
    Option.or_assoc]

/-- A simple object may be followed by what does not continue it, if it is no document without its
closing line break. -/
lemma follows_of_calm {a r : List Char} {v : Node} (h : simpleAt a = some (v, []))
    (hclosed : Accepts .hereDoc a v → EndsLine a) (hcalm : Calm r) : Follows a r := by
  by_cases hmark : a.head? = some '<'
  · exact .inr (.inl (hclosed (accepts_hereDoc.2 (hereDocAt_of_head h hmark))))
  · exact .inr (.inr ⟨hcalm, hmark⟩)

/-- A simple object is read where nothing continues it. -/
lemma objectAt_simple {o r : List Char} {v : Node} (h : simpleAt o = some (v, []))
    (hclosed : r ≠ [] → Accepts .hereDoc o v → EndsLine o) (he : Ends o r) :
    objectAt (o ++ r) = some (v, behind o r) := by
  have hfollows : Follows o r := by
    rcases he.calm with hnil | hline | ⟨hcalm, -⟩
    · exact .inl hnil
    · exact .inr (.inl hline)
    · by_cases hnil : r = []
      · exact .inl hnil
      · exact follows_of_calm h (hclosed hnil) hcalm
  have hsimple := cuts_simpleAt.before o v r h hfollows
  have hpair : keyValueWith objectAt (o ++ r) = none := by
    simp only [keyValueWith, hsimple, bind, Option.bind_some]
    cases hcolon : dropChar? (· == ':') ((behind o r).dropWhile isSpace) with
    | none => rfl
    | some q =>
      obtain ⟨c, hc, hq⟩ := dropChar?_eq_some.1 hcolon
      rw [eq_of_beq hc] at hq
      rw [Option.bind_some, he.key q hq]
      rfl
  rw [objectAt_of_simpleFirst (starts_simpleAt _ _ _ hsimple), hpair, rangeAt_eq_none hsimple he,
    hsimple, Option.none_or, Option.none_or]

/-! ## What follows the parts of composite objects -/

/-- A mark behind spaces does not continue a simple object. -/
lemma calm_pad {pad q : List Char} {mark : Char} (hpad : Spaces pad)
    (hmark : wordSet.contains mark = false)
    (hpoint : mark = '.' → ∀ d ∈ q.head?, digitSet.contains d = false) :
    Calm (pad ++ mark :: q) := by
  cases pad with
  | nil =>
    refine ⟨by simpa using hmark, fun d cs h => ?_⟩
    obtain ⟨rfl, rfl⟩ := List.cons.inj h
    exact hpoint rfl d rfl
  | cons c pad =>
    have hc : c = ' ' ∨ c = '\t' := hpad c (by simp)
    refine ⟨fun d hd => ?_, fun d cs h => ?_⟩
    · obtain rfl : c = d := Option.some.inj hd
      rcases hc with rfl | rfl <;> decide
    · obtain ⟨rfl, -⟩ := List.cons.inj h
      rcases hc with hc | hc <;> cases hc

/-- Behind the spaces in front of a mark is the mark. -/
lemma dropWhile_pad {pad : List Char} {mark : Char} (hpad : Spaces pad)
    (hmark : isSpace mark = false) (q : List Char) :
    (pad ++ mark :: q).dropWhile isSpace = mark :: q :=
  dropWhile_spaces hpad (by simpa using hmark)

/-- A simple object is read in front of a mark behind spaces. -/
lemma simpleAt_pad {a pad q : List Char} {mark : Char} {v : Node} (h : simpleAt a = some (v, []))
    (hclosed : Accepts .hereDoc a v → EndsLine a) (hpad : Spaces pad)
    (hcalm : Calm (pad ++ mark :: q)) (hmark : mark ≠ '\n') :
    simpleAt (a ++ (pad ++ mark :: q)) = some (v, pad ++ mark :: q) := by
  have hbehind : behind a (pad ++ mark :: q) = pad ++ mark :: q := by
    refine if_neg fun ⟨_, hhead⟩ => ?_
    cases pad with
    | nil => exact hmark (Option.some.inj hhead)
    | cons c pad =>
      obtain rfl : c = '\n' := Option.some.inj hhead
      rcases hpad _ (List.mem_cons_self ..) with hc | hc <;> cases hc
  have hread := cuts_simpleAt.before a v _ h (follows_of_calm h hclosed hcalm)
  rwa [hbehind] at hread

/-- Blanks in front of a mark are still there when a line feed has been taken in. -/
lemma Boundary.behind {mark : Char} {r : List Char} (h : Boundary mark r) (hmark : mark ≠ '\n')
    (a : List Char) : Boundary mark (behind a r) := by
  rw [Program.behind]
  split
  · rename_i hhead
    obtain ⟨s, q, hs, rfl⟩ := h
    cases s with
    | nil => exact absurd (Option.some.inj hhead.2) hmark
    | cons c s => exact ⟨s, q, fun d hd => hs d (by simp [hd]), rfl⟩
  · exact h

/-- Behind spaces there comes a part of a line break, or the mark. -/
lemma Boundary.head {mark : Char} {r : List Char} (h : Boundary mark r) :
    ∃ c ∈ r.head?, isBlank c = true ∨ c = mark := by
  obtain ⟨s, q, hs, rfl⟩ := h
  cases s with
  | nil => exact ⟨mark, rfl, .inr rfl⟩
  | cons c s => exact ⟨c, rfl, .inl (isBlank_iff.2 (hs c (by simp)))⟩

/-- Blanks in front of a mark are still there when spaces have been dropped. -/
lemma Boundary.dropSpaces {mark : Char} {r : List Char} (h : Boundary mark r)
    (hmark : isSpace mark = false) : Boundary mark (r.dropWhile isSpace) := by
  obtain ⟨s, q, hs, rfl⟩ := h
  induction s with
  | nil => exact ⟨[], q, nofun, by simp [hmark]⟩
  | cons c s ih =>
    by_cases hc : isSpace c = true
    · rw [List.cons_append, List.dropWhile_cons_of_pos hc]
      exact ih fun d hd => hs d (by simp [hd])
    · rw [List.cons_append, List.dropWhile_cons_of_neg hc]
      exact ⟨c :: s, q, hs, rfl⟩

/-- The marks behind elements, alone or behind blanks, continue no object. -/
lemma Ends.of_boundary {mark : Char} {r : List Char}
    (hmark : mark = ',' ∨ mark = ']' ∨ mark = '\x7d') (h : Boundary mark r) (a : List Char) :
    Ends a r := by
  have hchar : ∀ {c : Char}, isBlank c = true ∨ c = mark →
      wordSet.contains c = false ∧ c ≠ '.' ∧ c ≠ ':' := by
    rintro c (hc | rfl)
    · rcases isBlank_iff.1 hc with rfl | rfl | rfl | rfl <;> decide
    · rcases hmark with rfl | rfl | rfl <;> decide
  have hspace : isSpace mark = false ∧ mark ≠ '\n' := by
    rcases hmark with rfl | rfl | rfl <;> decide
  constructor
  · obtain ⟨c, hc, hkind⟩ := h.head
    obtain ⟨d, hd, hkind'⟩ := (h.dropSpaces hspace.1).head
    refine .inr (.inr ⟨⟨fun e he => ?_, fun e cs he => ?_⟩, ?_⟩)
    · rw [← Option.some.inj (hc.symm.trans he)]
      exact (hchar hkind).1
    · rw [he] at hc
      exact absurd (Option.some.inj hc).symm (hchar hkind).2.1
    · refine Option.eq_none_iff_forall_ne_some.2 fun q hq => ?_
      rw [dropPrefix?_eq_some.1 hq] at hd
      exact (hchar hkind').2.1 (Option.some.inj hd).symm
  · intro q hq
    obtain ⟨d, hd, hkind⟩ := ((h.behind hspace.2 a).dropSpaces hspace.1).head
    rw [hq] at hd
    exact absurd (Option.some.inj hd).symm (hchar hkind).2.2

/-- What ends an object ends the object inside it that comes last. -/
lemma Ends.of_append {a b r : List Char} (h : Ends (a ++ b) r) (hb : b ≠ []) : Ends b r where
  calm := by simpa only [endsLine_append hb] using h.calm
  key := by simpa only [behind_append_left hb] using h.key

/-! ## Composite objects -/

/-- Texts of fewer characters than so many that spell a tree are read as that tree. -/
def ReadsBelow (size : Nat) : Prop :=
  ∀ o r v, o.length < size → Spells (r ≠ []) o v → Ends o r →
    objectAt (o ++ r) = some (v, behind o r)

/-- No simple object is a pair. -/
lemma simpleAt_ne_keyValue {cs rest : List Char} {k w : Node} :
    simpleAt cs ≠ some (.keyValue k w, rest) := by
  intro h
  have hword : ∀ {word : List Char} {node : Node},
      wordAt word node cs = some (.keyValue k w, rest) →
      node = .keyValue k w := by
    intro word node hread
    simp only [wordAt, Option.map_eq_some_iff, Prod.mk.injEq] at hread
    obtain ⟨-, -, hnode, -⟩ := hread
    exact hnode
  have hquoted : ∀ {mark : Char} {make : String → Node},
      quotedAt mark make cs = some (.keyValue k w, rest) → ∃ s, make s = .keyValue k w := by
    intro mark make hread
    obtain ⟨body, -, -, hnode⟩ := quotedAt_eq_some.1 hread
    exact ⟨_, hnode.symm⟩
  simp only [simpleAt, booleanAt, numericAt, stringAt, Option.or_eq_some_iff] at h
  rcases h with hnil | ⟨-, (htrue | ⟨-, hfalse⟩) | ⟨-, (hdecimal | ⟨-, hinteger⟩) |
    ⟨-, hcharacter | ⟨-, (hsymbol | ⟨-, hsingle | ⟨-, hdouble | ⟨-, hhere⟩⟩⟩) | ⟨-, hregex⟩⟩⟩⟩⟩
  · cases hword hnil
  · cases hword htrue
  · cases hword hfalse
  · obtain ⟨_, _, _, _, -, -, -, -, -, hnode⟩ := decimalAt_eq_some.1 hdecimal
    cases hnode
  · obtain ⟨_, _, _, -, -, -, -, hnode⟩ := integerAt_eq_some.1 hinteger
    cases hnode
  · obtain ⟨_, -, -, hnode⟩ := characterAt_eq_some.1 hcharacter
    cases hnode
  · obtain ⟨_, -, -, -, -, hnode⟩ := symbolAt_eq_some.1 hsymbol
    cases hnode
  · obtain ⟨_, hnode⟩ := hquoted hsingle
    cases hnode
  · obtain ⟨_, hnode⟩ := hquoted hdouble
    cases hnode
  · obtain ⟨_, _, _, -, -, -, -, -, hnode⟩ := hereDocAt_eq_some.1 hhere
    cases hnode
  · obtain ⟨_, hnode⟩ := hquoted hregex
    cases hnode

/-- A key and a colon behind it are read, whatever the value is. -/
lemma keyValueWith_parts {a pad pad' cs : List Char} {k : Node} (ha : Accepts .simpleObject a k)
    (hclosed : Accepts .hereDoc a k → EndsLine a) (hpad : Spaces pad) (hpad' : Spaces pad')
    (hcs : ∀ c ∈ cs.head?, isSpace c = false) :
    keyValueWith objectAt (a ++ (pad ++ ':' :: (pad' ++ cs))) =
      (objectAt cs).map fun (w, rest) => (.keyValue k w, rest) := by
  have hcolon : ∀ cs, dropChar? (· == ':') (':' :: cs) = some cs := fun _ => rfl
  have hcalm : Calm (pad ++ ':' :: (pad' ++ cs)) :=
    calm_pad hpad (by decide) fun hne => absurd hne (by decide)
  have hkey := simpleAt_pad (accepts_simpleObject.1 ha) hclosed hpad hcalm (by decide)
  have hspaces := dropWhile_pad hpad (show isSpace ':' = false from rfl) (pad' ++ cs)
  simp only [keyValueWith, hkey, hspaces, hcolon, dropWhile_spaces hpad' hcs, bind,
    Option.bind_some]
  cases objectAt cs <;> rfl

/-- What spells a tree does not start with a space, whatever stands behind it. -/
lemma Spells.head_append {closed : Prop} {b : List Char} {w : Node} (h : Spells closed b w)
    (r : List Char) : ∀ c ∈ (b ++ r).head?, isSpace c = false := by
  obtain ⟨c, hc, hfirst⟩ := h.head
  obtain ⟨b, rfl⟩ := List.head?_eq_some_iff.1 hc
  intro d hd
  rw [← Option.some.inj hd]
  exact isSpace_of_objectFirst hfirst

/-- A pair is read where nothing continues it. -/
lemma keyValueWith_append {o r : List Char} {k w : Node} (ih : ReadsBelow o.length)
    (h : Spells (r ≠ []) o (.keyValue k w)) (he : Ends o r) :
    keyValueWith objectAt (o ++ r) = some (.keyValue k w, behind o r) := by
  cases h with
  | simple ha _ => exact absurd (accepts_simpleObject.1 ha) simpleAt_ne_keyValue
  | @keyValue _ a pad pad' b _ _ ha hclosed hpad hpad' hb =>
    have hread : objectAt (b ++ r) = some (w, behind b r) := by
      refine ih b r w ?_ hb ?_
      · simp only [List.length_append, List.length_cons]
        omega
      · rw [pair_eq_append] at he
        exact he.of_append hb.ne_nil
    rw [pair_append, keyValueWith_parts ha hclosed hpad hpad' (hb.head_append r), hread,
      pair_eq_append, behind_append_left hb.ne_nil]
    rfl

/-- The end of a range is read in front of what does not continue it. -/
lemma endpointAt_append {a r : List Char} {v : Node} (h : endpointAt a = some (v, []))
    (hr : r = [] ∨ Calm r) : endpointAt (a ++ r) = some (v, r) := by
  have hfollows : Follows a r := by
    rcases hr with hnil | hcalm
    · exact .inl hnil
    · refine .inr (.inr ⟨hcalm, fun hmark => ?_⟩)
      exact absurd (starts_endpointAt.head h hmark) (by decide)
  have hread := cuts_endpointAt.before a v r h hfollows
  rwa [behind_of_not_endsLine (not_endsLine_of_endpointAt h)] at hread

/-- The end of a range starts with a sign, a digit or the mark of a character. -/
lemma endpointAt_head {cs rest : List Char} {v : Node} (h : endpointAt cs = some (v, rest)) :
    cs.head? ≠ some '.' ∧ ∀ c ∈ cs.head?, isSpace c = false := by
  have hspace : ∀ c ∈ cs.head?, isSpace c = false := fun c hc =>
    isSpace_of_objectFirst (objectFirst_of_simpleFirst
      (simpleFirst_of_endpoint (starts_endpointAt.head h hc)))
  refine ⟨fun hpoint => ?_, hspace⟩
  rcases Option.or_eq_some_iff.1 h with hinteger | ⟨-, hcharacter⟩
  · obtain ⟨s, p, a, hp, ⟨hd, -⟩, -, rfl, -⟩ := integerAt_eq_some.1 hinteger
    cases hp with
    | none =>
      cases hpoint
      exact absurd hd (by decide)
    | plus | minus => cases hpoint
  · obtain ⟨c, -, rfl, -⟩ := characterAt_eq_some.1 hcharacter
    cases hpoint

/-- Where no point is ahead, a range has no third one. -/
lemma exclusivityAt_of_head {cs : List Char} (h : cs.head? ≠ some '.') :
    exclusivityAt cs = (none, cs) := by
  fun_cases exclusivityAt cs with
  | case1 cs => exact absurd rfl h
  | case2 => rfl

/-- A range is read where nothing continues it, and it is no pair. -/
lemma rangeAt_append {a pad point pad' b r : List Char} {start stop : Node} {x : Option String}
    (ha : endpointAt a = some (start, [])) (hpad : Spaces pad)
    (hx : x = none ∧ point = [] ∨ x = some "." ∧ point = ['.']) (hpad' : Spaces pad')
    (hb : endpointAt b = some (stop, [])) (hr : r = [] ∨ Calm r) :
    keyValueWith objectAt (a ++ (pad ++ '.' :: '.' :: (point ++ (pad' ++ (b ++ r))))) = none ∧
      rangeAt (a ++ (pad ++ '.' :: '.' :: (point ++ (pad' ++ (b ++ r))))) =
        some (.range start stop x, r) := by
  have hcalm : Calm (pad ++ '.' :: '.' :: (point ++ (pad' ++ (b ++ r)))) := by
    refine calm_pad hpad (by decide) fun _ d hd => ?_
    rw [← Option.some.inj hd]
    decide
  have hstart := endpointAt_append ha (.inr hcalm)
  have hspaces := dropWhile_pad hpad (show isSpace '.' = false from rfl)
    ('.' :: (point ++ (pad' ++ (b ++ r))))
  obtain ⟨hpoint, hspace⟩ := endpointAt_head hb
  have hhead : (b ++ r).head? = b.head? := List.head?_append_of_ne_nil _ (ne_nil_of_endpointAt hb)
  have hspaces' : (pad' ++ (b ++ r)).dropWhile isSpace = b ++ r :=
    dropWhile_spaces hpad' (by rwa [hhead])
  constructor
  · have hsimple : simpleAt (a ++ (pad ++ '.' :: '.' :: (point ++ (pad' ++ (b ++ r))))) =
        some (start, pad ++ '.' :: '.' :: (point ++ (pad' ++ (b ++ r)))) := by
      rcases simpleAt_of_endpointAt hstart with hsimple | ⟨d, more, heq, hd⟩
      · exact hsimple
      · exact absurd hd (by simp [hcalm.point d more heq])
    have hcolon : ∀ cs, dropChar? (· == ':') ('.' :: cs) = none := fun _ => rfl
    simp only [keyValueWith, hsimple, hspaces, hcolon, bind, Option.bind_some, Option.bind_none]
  · have hpoints : ∀ cs, ('.' :: '.' :: cs).dropPrefix? ['.', '.'] = some cs :=
      fun cs => dropPrefix?_eq_some.2 rfl
    have hexclusive : exclusivityAt (point ++ (pad' ++ (b ++ r))) = (x, pad' ++ (b ++ r)) := by
      rcases hx with ⟨rfl, rfl⟩ | ⟨rfl, rfl⟩
      · refine exclusivityAt_of_head fun hmark => ?_
        cases pad' with
        | nil => exact hpoint (hhead.symm.trans hmark)
        | cons c pad' =>
          obtain rfl : c = '.' := Option.some.inj hmark
          rcases hpad' _ (List.mem_cons_self ..) with hc | hc <;> cases hc
      · rfl
    have hstop := endpointAt_append hb hr
    simp only [rangeAt, hstart, hspaces, hpoints, hexclusive, hspaces', hstop, bind,
      Option.bind_some]

/-- Blanks in front of a mark and the mark are not nothing. -/
lemma Boundary.ne_nil {mark : Char} {r : List Char} (h : Boundary mark r) : r ≠ [] := by
  obtain ⟨s, q, -, rfl⟩ := h
  simp

/-- Elements of a list are read as long as there are fewer characters than so many. -/
lemma readsAll_objects {size : Nat} (ih : ReadsBelow size) :
    ReadsAll size objectAt (Spells True) ']' where
  first a v h := by
    obtain ⟨c, hc, hfirst⟩ := h.head
    exact ⟨c, hc, isBlank_of_objectFirst hfirst⟩
  before a v r hlt h hr := by
    have hne : r ≠ [] := hr.elim Boundary.ne_nil Boundary.ne_nil
    rw [← eq_true hne] at h
    refine ih a r v hlt h ?_
    rcases hr with hr | hr
    · exact .of_boundary (.inl rfl) hr a
    · exact .of_boundary (.inr (.inl rfl)) hr a
  close r := by
    refine starts_objectAt.eq_none fun c hc => ?_
    obtain rfl : ']' = c := Option.some.inj hc
    decide

/-- So are the pairs of a hash. -/
lemma readsAll_pairs {size : Nat} (ih : ReadsBelow size) :
    ReadsAll size (keyValueWith objectAt) (fun a v => Spells True a v ∧ ∃ k w, v = .keyValue k w)
      '\x7d' where
  first a v h := by
    obtain ⟨c, hc, hfirst⟩ := h.1.head
    exact ⟨c, hc, isBlank_of_objectFirst hfirst⟩
  before a v r hlt h hr := by
    have hne : r ≠ [] := hr.elim Boundary.ne_nil Boundary.ne_nil
    obtain ⟨h, k, w, rfl⟩ := h
    rw [← eq_true hne] at h
    refine keyValueWith_append (fun b q u hb hs he => ih b q u (hb.trans hlt) hs he) h ?_
    rcases hr with hr | hr
    · exact .of_boundary (.inl rfl) hr a
    · exact .of_boundary (.inr (.inr rfl)) hr a
  close r := by
    refine (starts_keyValueWith objectAt).eq_none fun c hc => ?_
    obtain rfl : '\x7d' = c := Option.some.inj hc
    decide

/-- A text that spells a tree is read as that tree where nothing continues it.

**Proof sketch.** Induction on the number of characters. For each form of a tree the alternatives
that come before its own do not match: a key and a colon start no range and no simple object of the
same extent, and the marks of hashes and lists start nothing else. -/
theorem objectAt_append {o r : List Char} {v : Node} (h : Spells (r ≠ []) o v) (he : Ends o r) :
    objectAt (o ++ r) = some (v, behind o r) := by
  have ih : ReadsBelow o.length := fun b q w hlt hb hends => objectAt_append hb hends
  have hmark : ∀ {c : Char} (cs : List Char), simpleFirst c = false →
      keyValueWith objectAt (c :: cs) = none ∧ rangeAt (c :: cs) = none := by
    intro c cs hc
    exact ⟨(starts_keyValueWith objectAt).eq_none (by simpa using hc),
      starts_rangeAt.eq_none (by simpa using hc)⟩
  cases h with
  | simple ha hclosed => exact objectAt_simple (accepts_simpleObject.1 ha) hclosed he
  | keyValue ha hclosed hpad hpad' hb =>
    rw [objectAt_eq, objectWith, compositeWith,
      keyValueWith_append ih (.keyValue ha hclosed hpad hpad' hb) he]
    rfl
  | @range _ a pad point pad' b start stop x ha hpad hx hpad' hb =>
    rw [accepts_endpoint] at ha hb
    have hassoc : a ++ (pad ++ '.' :: '.' :: (point ++ (pad' ++ b))) =
        (a ++ pad ++ '.' :: '.' :: (point ++ pad')) ++ b := by simp
    have hline := not_endsLine_range hb a pad point pad'
    have hr : r = [] ∨ Calm r := he.calm.imp_right fun hends =>
      (hends.resolve_left hline).1
    obtain ⟨hpair, hrange⟩ := rangeAt_append ha hpad hx hpad' hb hr
    rw [behind_of_not_endsLine hline, hassoc]
    simp only [List.append_assoc, List.cons_append]
    rw [objectAt_eq, objectWith, compositeWith, hpair, hrange]
    rfl
  | hash hpairs hall =>
    have hread := delimitedWith_append (advances_keyValueWith advances_objectAt)
      (readsAll_pairs ih) (by decide) (by decide) (Delimited.and_iff.2 ⟨hpairs, hall⟩) r
    have hline := hpairs.not_endsLine (by decide)
    obtain ⟨inside, rfl⟩ := hpairs.shape
    obtain ⟨hpair, hrange⟩ :=
      hmark (inside ++ ['\x7d'] ++ r) (show simpleFirst '\x7b' = false from rfl)
    rw [behind_of_not_endsLine hline, List.cons_append, objectAt_eq, objectWith,
      compositeWith, hpair, hrange, hashWith, ← List.cons_append, hread]
    rfl
  | list hitems =>
    have hread :=
      delimitedWith_append advances_objectAt (readsAll_objects ih) (by decide) (by decide) hitems r
    have hline := hitems.not_endsLine (by decide)
    obtain ⟨inside, rfl⟩ := hitems.shape
    obtain ⟨hpair, hrange⟩ := hmark (inside ++ [']'] ++ r) (show simpleFirst '[' = false from rfl)
    have hhash : hashWith objectAt ('[' :: (inside ++ [']'] ++ r)) = none :=
      Option.map_eq_none_iff.2 (delimitedWith_eq_none (by simp))
    rw [behind_of_not_endsLine hline, List.cons_append, objectAt_eq, objectWith,
      compositeWith, hpair, hrange, hhash, listWith, ← List.cons_append, hread]
    rfl
termination_by o.length

/-! ## Texts as a whole -/

/-- Nothing continues an object behind which there is nothing. -/
lemma ends_nil (o : List Char) : Ends o [] where
  calm := .inl rfl
  key q hq := by
    rw [behind_nil] at hq
    cases hq

/-- The texts that spell a tree are those that are read to their end. -/
lemma spells_iff {cs : List Char} {v : Node} :
    Spells False cs v ↔ objectAt cs = some (v, []) := by
  have hopen : (([] : List Char) ≠ []) = False := eq_false fun hne => hne rfl
  constructor
  · intro h
    rw [← hopen] at h
    have hread := objectAt_append h (ends_nil cs)
    rwa [List.append_nil, behind_nil] at hread
  · intro h
    obtain ⟨o, ho, hfound⟩ := exists_found h
    rw [List.append_nil] at ho
    have hspells := hfound.spells
    rwa [hopen, ← ho] at hspells

/-- A text spells at most one tree. -/
lemma Spells.unique {cs : List Char} {v w : Node} (h : Spells False cs v) (h' : Spells False cs w) :
    v = w := by
  have heq := (spells_iff.1 h).symm.trans (spells_iff.1 h')
  exact (Prod.mk.inj (Option.some.inj heq)).1

/-- A text is accepted as an object just as the tree that it spells, if the limit is not exceeded;
and there is at most one such tree. -/
theorem parse_object_iff_spells {settings : Settings} {text : String}
    (h : ¬ TooDeep (grammar.parse settings (.named .object) text)) :
    (∀ result, grammar.parse settings (.named .object) text = .ok result ↔
      ∃ v, result = .object v ∧ Spells False text.toList v) ∧
      ∀ v w, Spells False text.toList v → Spells False text.toList w → v = w := by
  refine ⟨fun result => ?_, fun v w => Spells.unique⟩
  have hread : ∀ cs, Phrase.object.read cs = whole (objectAt cs) := fun _ => rfl
  simp only [parse_named_iff hread h, spells_iff]

/-- A hash with a list and a document in it spells a tree, and is accepted. -/
theorem parse_object_hash :
    ¬ TooDeep (grammar.parse {} (.named .object) "\x7b:a : [1 .. 2, <<A\nA\n] \x7d") ∧
      (∀ result, grammar.parse {} (.named .object) "\x7b:a : [1 .. 2, <<A\nA\n] \x7d" = .ok result ↔
        ∃ v, result = .object v ∧ Spells False "\x7b:a : [1 .. 2, <<A\nA\n] \x7d".toList v) := by
  have h : ¬ TooDeep (grammar.parse {} (.named .object) "\x7b:a : [1 .. 2, <<A\nA\n] \x7d") :=
    not_tooDeep_of_isOk (by decide +kernel)
  exact ⟨h, (parse_object_iff_spells h).1⟩

end Packrat.Program
