import Packrat.Proofs.Program.Token
set_option autoImplicit false
set_option relaxedAutoImplicit false

/-!
# Where numbers end

Digits may be grouped by single underscores, each with a digit on both sides. A number may have a
sign in front, and a point with digits behind it. A reader takes the longest piece of this form.

## Main definitions

* `Packrat.Program.Digits` — digits, grouped or not.
* `Packrat.Program.SignText` — how the sign of a number is written.

## Main results

* `Packrat.Program.dropDigits?_eq_some`, `Packrat.Program.integerAt_eq_some`,
  `Packrat.Program.decimalAt_eq_some` — what is read of a number.
* `Packrat.Program.cuts_numericAt` — numbers are read in front of others as on their own.
-/

namespace Packrat.Program

/-! ## Digits -/

/-- What may follow a digit as part of the same digits. -/
inductive MoreDigits : List Char → Prop
  | nil : MoreDigits []
  | digit {d : Char} {cs : List Char} (hd : digitSet.contains d = true) (h : MoreDigits cs) :
      MoreDigits (d :: cs)
  | grouped {d : Char} {cs : List Char} (hd : digitSet.contains d = true) (h : MoreDigits cs) :
      MoreDigits ('_' :: d :: cs)

/-- Digits, with single underscores between them. -/
inductive Digits : List Char → Prop
  | mk {d : Char} {cs : List Char} (hd : digitSet.contains d = true) (h : MoreDigits cs) :
      Digits (d :: cs)

/-- A digit is dropped with more digits. -/
lemma dropMoreDigits_digit {d : Char} (hd : digitSet.contains d = true) (cs : List Char) :
    dropMoreDigits (d :: cs) = dropMoreDigits cs := by
  have hne : d ≠ '_' := by
    rintro rfl
    exact absurd hd (by decide)
  rw [dropMoreDigits, if_pos hd]
  rintro _ _ rfl
  exact absurd rfl hne

/-- An underscore is dropped with the digit behind it. -/
lemma dropMoreDigits_grouped {d : Char} (hd : digitSet.contains d = true) (cs : List Char) :
    dropMoreDigits ('_' :: d :: cs) = dropMoreDigits cs := by
  rw [dropMoreDigits, if_pos hd]

/-- Where digits end, no more are dropped. -/
lemma dropMoreDigits_of_digitsEnd {r : List Char} (h : DigitsEnd r) : dropMoreDigits r = r := by
  fun_cases dropMoreDigits r with
  | case1 d cs hd => exact absurd hd (by simp [(h _ _ rfl).2 rfl d cs rfl])
  | case2 d cs hd => rfl
  | case3 c cs _ hc => exact absurd hc (by simp [(h _ _ rfl).1])
  | case4 c cs _ hc => rfl
  | case5 => rfl

/-- Some of the digits may be dropped before the rest. -/
lemma MoreDigits.dropMoreDigits_append {a : List Char} (ha : MoreDigits a) (r : List Char) :
    dropMoreDigits (a ++ r) = dropMoreDigits r := by
  induction ha with
  | nil => rfl
  | digit hd _ ih => rw [List.cons_append, dropMoreDigits_digit hd, ih]
  | grouped hd _ ih => rw [List.cons_append, List.cons_append, dropMoreDigits_grouped hd, ih]

/-- Digits are dropped with those behind them. -/
lemma Digits.dropDigits?_append {a : List Char} (ha : Digits a) (r : List Char) :
    dropDigits? (a ++ r) = some (dropMoreDigits r) := by
  obtain ⟨hd, hmore⟩ := ha
  rw [List.cons_append, dropDigits?, dropChar?_cons hd, Option.map_some,
    hmore.dropMoreDigits_append]

/-- What is dropped are digits, and they end there. -/
lemma exists_moreDigits (cs : List Char) :
    ∃ a, MoreDigits a ∧ cs = a ++ dropMoreDigits cs ∧ DigitsEnd (dropMoreDigits cs) := by
  fun_induction dropMoreDigits cs with
  | case1 d cs hd ih =>
    obtain ⟨a, ha, hcs, hend⟩ := ih
    exact ⟨'_' :: d :: a, .grouped hd ha, by rw [List.cons_append, List.cons_append, ← hcs], hend⟩
  | case2 d cs hd =>
    refine ⟨[], .nil, rfl, ?_⟩
    rintro c rest ⟨⟩
    refine ⟨by decide, ?_⟩
    rintro - _ _ ⟨⟩
    simpa using hd
  | case3 c cs hnot hc ih =>
    obtain ⟨a, ha, hcs, hend⟩ := ih
    exact ⟨c :: a, .digit hc ha, by rw [List.cons_append, ← hcs], hend⟩
  | case4 c cs hnot hc =>
    refine ⟨[], .nil, rfl, ?_⟩
    rintro c rest ⟨⟩
    refine ⟨by simpa using hc, ?_⟩
    rintro rfl d ds rfl
    exact absurd rfl (hnot d ds rfl)
  | case5 => exact ⟨[], .nil, rfl, nofun⟩

/-- What is dropped are digits up to where they end. -/
lemma dropDigits?_eq_some {cs rest : List Char} :
    dropDigits? cs = some rest ↔ ∃ a, Digits a ∧ cs = a ++ rest ∧ DigitsEnd rest := by
  simp only [dropDigits?, Option.map_eq_some_iff, dropChar?_eq_some]
  constructor
  · rintro ⟨cs, ⟨d, hd, rfl⟩, rfl⟩
    obtain ⟨a, ha, hcs, hend⟩ := exists_moreDigits cs
    exact ⟨d :: a, .mk hd ha, by rw [List.cons_append, ← hcs], hend⟩
  · rintro ⟨_, ⟨hd, ha⟩, rfl, hend⟩
    exact ⟨_, ⟨_, hd, rfl⟩,
      (ha.dropMoreDigits_append rest).trans (dropMoreDigits_of_digitsEnd hend)⟩

/-- A step over a group of digits, with the underscore in front of it if there is one. -/
def groupStep (cs : List Char) : Option (Unit × List Char) :=
  (dropChar? digitSet.contains ((dropChar? (· == '_') cs).getD cs)).map fun _ =>
    ((), ((dropChar? (· == '_') cs).getD cs).dropWhile digitSet.contains)

/-- Groups of digits may be dropped before the rest. -/
lemma dropMoreDigits_dropWhile (cs : List Char) :
    dropMoreDigits (cs.dropWhile digitSet.contains) = dropMoreDigits cs := by
  induction cs with
  | nil => rfl
  | cons c cs ih =>
    by_cases hc : digitSet.contains c = true
    · rw [List.dropWhile_cons_of_pos hc, ih, dropMoreDigits_digit hc]
    · rw [List.dropWhile_cons_of_neg hc]

/-- A step over a group takes a character, and leaves as many digits to drop as there were. -/
lemma groupStep_eq_some {cs rest : List Char} {u : Unit} (h : groupStep cs = some (u, rest)) :
    ∃ a, a ≠ [] ∧ cs = a ++ rest ∧ dropMoreDigits rest = dropMoreDigits cs := by
  simp only [groupStep, Option.map_eq_some_iff, dropChar?_eq_some, Prod.mk.injEq] at h
  obtain ⟨more, ⟨d, hd, hleft⟩, -, rfl⟩ := h
  obtain ⟨mark, hcs, hdigits⟩ : ∃ mark, cs = mark ++ d :: more ∧
      dropMoreDigits cs = dropMoreDigits (d :: more) := by
    cases hunder : dropChar? (· == '_') cs with
    | none =>
      rw [hunder, Option.getD_none] at hleft
      exact ⟨[], hleft, by rw [hleft]⟩
    | some left =>
      rw [hunder, Option.getD_some] at hleft
      obtain ⟨c, hc, rfl⟩ := dropChar?_eq_some.1 hunder
      obtain rfl := eq_of_beq hc
      exact ⟨['_'], by rw [hleft]; rfl,
        by rw [hleft, dropMoreDigits_grouped hd, dropMoreDigits_digit hd]⟩
  rw [hleft, dropMoreDigits_dropWhile, hdigits]
  refine ⟨mark ++ (d :: more).takeWhile digitSet.contains, ?_, ?_, rfl⟩
  · rw [List.takeWhile_cons_of_pos hd]
    simp
  · rw [List.append_assoc, List.takeWhile_append_dropWhile, hcs]

/-- A step over a group takes a character. -/
lemma advances_groupStep : Advances groupStep := by
  intro cs _ rest h
  obtain ⟨a, hne, hcs, -⟩ := groupStep_eq_some h
  exact ⟨a, hne, hcs⟩

/-- Digits end where there is no step over a group. -/
lemma digitsEnd_of_groupStep {cs : List Char} (h : groupStep cs = none) : DigitsEnd cs := by
  rw [groupStep, Option.map_eq_none_iff] at h
  rintro c cs rfl
  by_cases hc : c = '_'
  · subst hc
    refine ⟨by decide, ?_⟩
    rintro - d ds rfl
    simpa [dropChar?] using h
  · refine ⟨?_, fun hunder => absurd hunder hc⟩
    simpa [dropChar?, hc] using h

/-- Dropping one group of digits after the other leaves what is left behind all of them. -/
lemma many_groupStep (cs : List Char) : (many groupStep cs).2 = dropMoreDigits cs := by
  cases hs : groupStep cs with
  | none => rw [many_of_none hs, dropMoreDigits_of_digitsEnd (digitsEnd_of_groupStep hs)]
  | some result =>
    obtain ⟨u, rest⟩ := result
    have hlt := advances_groupStep.length_lt hs
    obtain ⟨a, -, -, hdigits⟩ := groupStep_eq_some hs
    rw [many_of_some advances_groupStep hs, ← hdigits]
    exact many_groupStep rest
termination_by cs.length

/-- Digits end with the text. -/
lemma digitsEnd_nil : DigitsEnd [] := nofun

/-- Digits end in front of what goes on with no word. -/
lemma Calm.digitsEnd {r : List Char} (h : Calm r) : DigitsEnd r := by
  rintro c cs rfl
  have hword := h.word c rfl
  constructor
  · by_contra hd
    exact absurd (wordSet_of_digitSet (by simpa using hd)) (by simp [hword])
  · rintro rfl
    exact absurd hword (by decide)

/-- More digits are characters of words. -/
lemma MoreDigits.wordSet {a : List Char} (h : MoreDigits a) :
    ∀ c ∈ a, wordSet.contains c = true := by
  induction h with
  | nil => nofun
  | digit hd _ ih =>
    intro c hc
    rcases List.mem_cons.1 hc with rfl | hc
    · exact wordSet_of_digitSet hd
    · exact ih c hc
  | grouped hd _ ih =>
    intro c hc
    rcases List.mem_cons.1 hc with rfl | hc
    · decide
    · rcases List.mem_cons.1 hc with rfl | hc
      · exact wordSet_of_digitSet hd
      · exact ih c hc

/-- Digits are characters of words. -/
lemma Digits.wordSet {a : List Char} (h : Digits a) : ∀ c ∈ a, wordSet.contains c = true := by
  obtain ⟨hd, hmore⟩ := h
  intro c hc
  rcases List.mem_cons.1 hc with rfl | hc
  · exact wordSet_of_digitSet hd
  · exact hmore.wordSet c hc

/-- Digits end no line. -/
lemma Digits.not_endsLine {a : List Char} (h : Digits a) : ¬ EndsLine a := by
  have hword := h.wordSet
  obtain ⟨hd, hmore⟩ := h
  obtain ⟨initial, c, hc⟩ := (List.eq_nil_or_concat' (_ :: _)).resolve_left (List.cons_ne_nil _ _)
  rw [hc] at hword ⊢
  exact not_endsLine_concat (not_endsLine_of_wordSet (hword c (by simp)))

/-! ## Signs -/

/-- How the sign of a number is written. -/
inductive SignText : Option String → List Char → Prop
  | none : SignText none []
  | plus : SignText (some "+") ['+']
  | minus : SignText (some "-") ['-']

/-- The characters do not start with a sign. -/
def Unsigned (cs : List Char) : Prop := ∀ c ∈ cs.head?, c ≠ '+' ∧ c ≠ '-'

/-- The sign of a number stands in front of the rest of it. -/
lemma exists_signText (cs : List Char) :
    ∃ p, SignText (signAt cs).1 p ∧ cs = p ++ (signAt cs).2 := by
  fun_cases signAt cs with
  | case1 cs => exact ⟨['+'], .plus, rfl⟩
  | case2 cs => exact ⟨['-'], .minus, rfl⟩
  | case3 => exact ⟨[], .none, rfl⟩

/-- The sign is read where it stands in front of what begins with none. -/
lemma signAt_append {s : Option String} {p cs : List Char} (h : SignText s p) (hu : Unsigned cs) :
    signAt (p ++ cs) = (s, cs) := by
  cases h with
  | none =>
    fun_cases signAt cs with
    | case1 cs => exact absurd rfl (hu '+' rfl).1
    | case2 cs => exact absurd rfl (hu '-' rfl).2
    | case3 => rfl
  | plus => rfl
  | minus => rfl

/-- Digits do not start with a sign. -/
lemma Digits.unsigned {a : List Char} (h : Digits a) (r : List Char) : Unsigned (a ++ r) := by
  obtain ⟨hd, -⟩ := h
  rintro c ⟨⟩
  constructor <;> rintro rfl <;> exact absurd hd (by decide)

/-! ## Numbers -/

/-- A number without a point is a sign and digits, up to where they end. -/
lemma integerAt_eq_some {cs rest : List Char} {v : Node} :
    integerAt cs = some (v, rest) ↔ ∃ s p a, SignText s p ∧ Digits a ∧ DigitsEnd rest ∧
      cs = p ++ (a ++ rest) ∧ v = .integer (String.ofList a) s := by
  simp only [integerAt, bind, Option.bind_eq_some_iff, dropDigits?_eq_some, Option.some.injEq,
    Prod.mk.injEq]
  constructor
  · rintro ⟨_, ⟨a, ha, hcs, hend⟩, rfl, rfl⟩
    obtain ⟨p, hp, hsign⟩ := exists_signText cs
    refine ⟨_, p, a, hp, ha, hend, by rw [← hcs, ← hsign], ?_⟩
    rw [hcs, front_append]
  · rintro ⟨s, p, a, hp, ha, hend, rfl, rfl⟩
    rw [signAt_append hp (ha.unsigned rest)]
    exact ⟨rest, ⟨a, ha, rfl, hend⟩, by rw [front_append], rfl⟩

/-- Digits in front of a point, or none. -/
lemma dropDigits?_point {a : List Char} (ha : a = [] ∨ Digits a) (cs : List Char) :
    (dropDigits? (a ++ '.' :: cs)).getD (a ++ '.' :: cs) = '.' :: cs := by
  rcases ha with rfl | ha
  · rfl
  · have hend : DigitsEnd ('.' :: cs) := by
      rintro _ _ ⟨⟩
      exact ⟨by decide, fun h => absurd h (by decide)⟩
    rw [dropDigits?_eq_some.2 ⟨a, ha, rfl, hend⟩]
    rfl

/-- Digits and a point do not start with a sign. -/
lemma unsigned_point {a : List Char} (ha : a = [] ∨ Digits a) (cs : List Char) :
    Unsigned (a ++ '.' :: cs) := by
  rcases ha with rfl | ha
  · rintro c ⟨⟩
    decide
  · exact ha.unsigned _

/-- What may be dropped in front of a point are digits, or nothing. -/
lemma exists_digits_or_nil (cs : List Char) :
    ∃ a, (a = [] ∨ Digits a) ∧ cs = a ++ (dropDigits? cs).getD cs := by
  cases h : dropDigits? cs with
  | none => exact ⟨[], .inl rfl, rfl⟩
  | some rest =>
    obtain ⟨a, ha, hcs, -⟩ := dropDigits?_eq_some.1 h
    exact ⟨a, .inr ha, hcs⟩

/-- A number with a point is a sign, digits or none, a point, and digits up to where they end. -/
lemma decimalAt_eq_some {cs rest : List Char} {v : Node} :
    decimalAt cs = some (v, rest) ↔ ∃ s p a b, SignText s p ∧ (a = [] ∨ Digits a) ∧ Digits b ∧
      DigitsEnd rest ∧ cs = p ++ (a ++ '.' :: (b ++ rest)) ∧
      v = .decimal (String.ofList (a ++ '.' :: b)) s := by
  have hassoc : ∀ a b : List Char, a ++ '.' :: (b ++ rest) = (a ++ '.' :: b) ++ rest := by simp
  simp only [decimalAt, bind, Option.bind_eq_some_iff, dropDigits?_eq_some, dropChar?_eq_some,
    Option.some.injEq, Prod.mk.injEq, beq_iff_eq]
  constructor
  · rintro ⟨_, ⟨_, rfl, hpoint⟩, _, ⟨b, hb, rfl, hend⟩, rfl, rfl⟩
    obtain ⟨p, hp, hsign⟩ := exists_signText cs
    obtain ⟨a, ha, hdigits⟩ := exists_digits_or_nil (signAt cs).2
    rw [hpoint] at hdigits
    refine ⟨_, p, a, b, hp, ha, hb, hend, by rw [← hdigits, ← hsign], ?_⟩
    rw [hdigits, hassoc, front_append]
  · rintro ⟨s, p, a, b, hp, ha, hb, hend, rfl, rfl⟩
    rw [signAt_append hp (unsigned_point ha _)]
    refine ⟨_, ⟨_, rfl, dropDigits?_point ha _⟩, rest, ⟨b, hb, rfl, hend⟩, ?_, rfl⟩
    rw [hassoc, front_append]

/-- Digits with nothing behind them that continues them are no number with a point. -/
lemma decimalAt_eq_none {s : Option String} {p a r : List Char} (hp : SignText s p)
    (ha : Digits a) (hend : DigitsEnd r)
    (hpoint : ∀ d cs, r = '.' :: d :: cs → digitSet.contains d = false) :
    decimalAt (p ++ (a ++ r)) = none := by
  have hdigits : dropDigits? (a ++ r) = some r := dropDigits?_eq_some.2 ⟨a, ha, rfl, hend⟩
  rw [decimalAt, signAt_append hp (ha.unsigned r)]
  simp only [hdigits, Option.getD_some]
  match r with
  | [] => rfl
  | [c] => by_cases hc : c = '.' <;> simp [dropChar?, hc, dropDigits?]
  | c :: d :: cs =>
    by_cases hc : c = '.'
    · subst hc
      simp [dropChar?, dropDigits?, hpoint d cs rfl]
    · simp [dropChar?, hc]

/-- What a number starts with. -/
def numericFirst (c : Char) : Bool := digitSet.contains c || c == '+' || c == '-' || c == '.'

/-- A sign in front of a number starts one as well. -/
lemma numericFirst_of_signText {s : Option String} {p cs : List Char} (hp : SignText s p)
    (h : ∃ c ∈ cs.head?, numericFirst c = true) : ∃ c ∈ (p ++ cs).head?, numericFirst c = true := by
  cases hp with
  | none => exact h
  | plus => exact ⟨'+', rfl, by decide⟩
  | minus => exact ⟨'-', rfl, by decide⟩

/-- Digits start a number. -/
lemma Digits.numericFirst {a : List Char} (h : Digits a) (r : List Char) :
    ∃ c ∈ (a ++ r).head?, numericFirst c = true := by
  obtain ⟨hd, -⟩ := h
  exact ⟨_, rfl, by simp [Program.numericFirst, hd]⟩

/-- A number without a point starts as numbers do. -/
lemma starts_integerAt : integerAt.Starts numericFirst := by
  intro cs v rest h
  obtain ⟨s, p, a, hp, ha, -, rfl, -⟩ := integerAt_eq_some.1 h
  exact numericFirst_of_signText hp (ha.numericFirst rest)

/-- A number with a point starts as numbers do. -/
lemma starts_decimalAt : decimalAt.Starts numericFirst := by
  intro cs v rest h
  obtain ⟨s, p, a, b, hp, ha, -, -, rfl, -⟩ := decimalAt_eq_some.1 h
  refine numericFirst_of_signText hp ?_
  rcases ha with rfl | ha
  · exact ⟨'.', rfl, by decide⟩
  · exact ha.numericFirst _

/-- A number starts as numbers do. -/
lemma starts_numericAt : numericAt.Starts numericFirst := by
  intro cs v rest h
  rcases Option.or_eq_some_iff.1 h with h | ⟨-, h⟩
  · exact starts_decimalAt cs v rest h
  · exact starts_integerAt cs v rest h

/-- A number lies within a line. -/
lemma shape_of_digits {p a : List Char} (ha : Digits a)
    (hs : ∃ c ∈ (p ++ a).head?, numericFirst c = true) :
    ¬ EndsLine (p ++ a) ∧ (p ++ a).head? ≠ some '<' := by
  have hne : a ≠ [] := by
    cases ha
    simp
  refine ⟨by rw [endsLine_append hne]; exact ha.not_endsLine, fun hmark => ?_⟩
  obtain ⟨c, hc, hfirst⟩ := hs
  obtain rfl : c = '<' := Option.some.inj (hc.symm.trans hmark)
  exact absurd hfirst (by decide)

/-- A number without a point ends no line and is no document. -/
lemma integerAt_shape {a : List Char} {v : Node} (h : integerAt a = some (v, [])) :
    ¬ EndsLine a ∧ a.head? ≠ some '<' := by
  have hs := starts_integerAt a v [] h
  obtain ⟨s, p, ds, hp, hds, -, rfl, -⟩ := integerAt_eq_some.1 h
  rw [List.append_nil] at hs ⊢
  exact shape_of_digits hds hs

/-- A number with a point ends no line and is no document. -/
lemma decimalAt_shape {a : List Char} {v : Node} (h : decimalAt a = some (v, [])) :
    ¬ EndsLine a ∧ a.head? ≠ some '<' := by
  have hs := starts_decimalAt a v [] h
  obtain ⟨s, p, ds, b, hp, -, hb, -, rfl, -⟩ := decimalAt_eq_some.1 h
  have hassoc : p ++ (ds ++ '.' :: (b ++ [])) = (p ++ ds ++ ['.']) ++ b := by simp
  rw [hassoc] at hs ⊢
  exact shape_of_digits hb hs

/-- A number without a point is read in front of other characters as on its own. -/
lemma cuts_integerAt : integerAt.Cuts := by
  refine .of_within (fun cs v rest h => ?_) (fun a v r h hr => ?_) fun a v h => integerAt_shape h
  · obtain ⟨s, p, a, hp, ha, -, rfl, rfl⟩ := integerAt_eq_some.1 h
    refine ⟨p ++ a, ?_, by simp, integerAt_eq_some.2 ⟨s, p, a, hp, ha, digitsEnd_nil, by simp, rfl⟩⟩
    cases ha
    simp
  · obtain ⟨s, p, a, hp, ha, -, rfl, rfl⟩ := integerAt_eq_some.1 h
    exact integerAt_eq_some.2 ⟨s, p, a, hp, ha, hr.digitsEnd, by simp, rfl⟩

/-- A number with a point is read in front of other characters as on its own. -/
lemma cuts_decimalAt : decimalAt.Cuts := by
  refine .of_within (fun cs v rest h => ?_) (fun a v r h hr => ?_) fun a v h => decimalAt_shape h
  · obtain ⟨s, p, a, b, hp, ha, hb, -, rfl, rfl⟩ := decimalAt_eq_some.1 h
    exact ⟨p ++ (a ++ '.' :: b), by simp, by simp,
      decimalAt_eq_some.2 ⟨s, p, a, b, hp, ha, hb, digitsEnd_nil, by simp, rfl⟩⟩
  · obtain ⟨s, p, a, b, hp, ha, hb, -, rfl, rfl⟩ := decimalAt_eq_some.1 h
    exact decimalAt_eq_some.2 ⟨s, p, a, b, hp, ha, hb, hr.digitsEnd, by simp, rfl⟩

/-- A number with a point is sought first. What is read as a number without one is so on its own and
in front of what may follow, since a point that follows has no digit behind it. -/
lemma cuts_numericAt : numericAt.Cuts := by
  refine .of_within (fun cs v rest h => ?_) (fun a v r h hr => ?_) (fun a v h => ?_)
  · rcases Option.or_eq_some_iff.1 h with h | ⟨-, h⟩
    · obtain ⟨a, hne, hcs, ha, -⟩ := cuts_decimalAt.alone cs v rest h
      exact ⟨a, hne, hcs, Option.or_eq_some_iff.2 (.inl ha)⟩
    · obtain ⟨a, hne, hcs, ha, -⟩ := cuts_integerAt.alone cs v rest h
      obtain ⟨s, p, ds, hp, hds, -, rfl, rfl⟩ := integerAt_eq_some.1 ha
      exact ⟨_, hne, hcs, Option.or_eq_some_iff.2
        (.inr ⟨decimalAt_eq_none hp hds digitsEnd_nil nofun, ha⟩)⟩
  · rcases Option.or_eq_some_iff.1 h with h | ⟨-, h⟩
    · obtain ⟨s, p, a, b, hp, ha, hb, -, rfl, rfl⟩ := decimalAt_eq_some.1 h
      refine Option.or_eq_some_iff.2 (.inl ?_)
      exact decimalAt_eq_some.2 ⟨s, p, a, b, hp, ha, hb, hr.digitsEnd, by simp, rfl⟩
    · obtain ⟨s, p, ds, hp, hds, -, rfl, rfl⟩ := integerAt_eq_some.1 h
      refine Option.or_eq_some_iff.2 (.inr ⟨?_, ?_⟩)
      · rw [List.append_nil, List.append_assoc]
        exact decimalAt_eq_none hp hds hr.digitsEnd hr.point
      · exact integerAt_eq_some.2 ⟨s, p, ds, hp, hds, hr.digitsEnd, by simp, rfl⟩
  · rcases Option.or_eq_some_iff.1 h with h | ⟨-, h⟩
    · exact decimalAt_shape h
    · exact integerAt_shape h

end Packrat.Program
