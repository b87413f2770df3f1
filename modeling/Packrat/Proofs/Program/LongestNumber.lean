import Packrat.Proofs.Program.InPlace
set_option autoImplicit false
set_option relaxedAutoImplicit false

/-!
# The longest number

A number has digits, with a sign in front of them or without, or digits behind a point, with other
digits in front of the point or without. Digits may be grouped by single underscores, each between
two of them.

Digits are taken as long as there are any and never given back, and a number with a point is sought
before one without. Nevertheless it is always the longest number that is taken of those that begin
at a position: whichever of them is dropped first, dropping the digits behind it goes on to the same
place or to one further on.

## Main definitions

* `Packrat.Program.NumberText` — how a number is written.

## Main results

* `Packrat.Program.NumberText.numericAt`, `Packrat.Program.NumberText.length_le` — no number that is
  ahead goes further than what is read.
* `Packrat.Program.exists_numberText` — what is read is a number, and its node has it as written.
* `Packrat.Program.numeric_matches` — when there is a number at a position, and what is one.
-/

namespace Packrat.Program

/-- How a number is written: a sign, if any, and digits, or a point with digits behind it and others
in front of it, if any. -/
inductive NumberText : List Char → Prop
  | integer {s : Option String} {p a : List Char} (hp : SignText s p) (ha : Digits a) :
      NumberText (p ++ a)
  | decimal {s : Option String} {p a b : List Char} (hp : SignText s p) (ha : a = [] ∨ Digits a)
      (hb : Digits b) : NumberText (p ++ (a ++ '.' :: b))

/-! ## What is left behind a number -/

/-- What is left behind more digits is the end of what is ahead. -/
lemma dropMoreDigits_suffix (cs : List Char) : dropMoreDigits cs <:+ cs := by
  obtain ⟨a, -, hcs, -⟩ := exists_moreDigits cs
  exact ⟨a, hcs.symm⟩

/-- A number without a point is read where a sign and digits are ahead, up to the last digit. -/
lemma exists_integerAt {s : Option String} {p a : List Char} (hp : SignText s p) (ha : Digits a)
    (r : List Char) : ∃ v, integerAt (p ++ a ++ r) = some (v, dropMoreDigits r) := by
  rw [List.append_assoc, integerAt, signAt_append hp (ha.unsigned r), ha.dropDigits?_append]
  exact ⟨_, rfl⟩

/-- A number with a point is read where one is ahead, up to the last digit. -/
lemma exists_decimalAt {s : Option String} {p a b : List Char} (hp : SignText s p)
    (ha : a = [] ∨ Digits a) (hb : Digits b) (r : List Char) :
    ∃ v, decimalAt (p ++ (a ++ '.' :: b) ++ r) = some (v, dropMoreDigits r) := by
  rw [List.append_assoc, List.append_assoc, List.cons_append, decimalAt,
    signAt_append hp (unsigned_point ha _)]
  simp only [dropDigits?_point ha, dropChar?_cons, beq_self_eq_true, hb.dropDigits?_append, bind,
    Option.bind_some]
  exact ⟨_, rfl⟩

/-- Where a number with a point is read, one without a point ends at the point or before. -/
lemma suffix_of_decimalAt {cs left rest : List Char} {v w : Node}
    (h : integerAt cs = some (v, left))
    (hpoint : decimalAt cs = some (w, rest)) : rest <:+ left := by
  simp only [integerAt, bind, Option.bind_eq_some_iff, Option.some.injEq, Prod.mk.injEq] at h
  obtain ⟨_, hdigits, -, rfl⟩ := h
  simp only [decimalAt, bind, hdigits, Option.getD_some, Option.bind_eq_some_iff, dropChar?_eq_some,
    dropDigits?_eq_some, Option.some.injEq, Prod.mk.injEq] at hpoint
  obtain ⟨_, ⟨c, -, rfl⟩, _, ⟨b, -, rfl, -⟩, -, rfl⟩ := hpoint
  exact ⟨c :: b, rfl⟩

/-- If there is a number ahead, then one is read, and what is left of the characters lies behind
it. -/
theorem NumberText.numericAt {n : List Char} (h : NumberText n) (r : List Char) :
    ∃ v rest, numericAt (n ++ r) = some (v, rest) ∧ rest <:+ r := by
  cases h with
  | integer hp ha =>
    obtain ⟨v, hv⟩ := exists_integerAt hp ha r
    cases hpoint : decimalAt _ with
    | none => exact ⟨v, _, by rw [Program.numericAt, hpoint, hv]; rfl, dropMoreDigits_suffix r⟩
    | some result =>
      obtain ⟨w, rest⟩ := result
      exact ⟨w, rest, by rw [Program.numericAt, hpoint]; rfl,
        (suffix_of_decimalAt hv hpoint).trans (dropMoreDigits_suffix r)⟩
  | decimal hp ha hb =>
    obtain ⟨v, hv⟩ := exists_decimalAt hp ha hb r
    exact ⟨v, _, by rw [Program.numericAt, hv]; rfl, dropMoreDigits_suffix r⟩

/-- No number that is ahead is longer than what is read. -/
theorem NumberText.length_le {n chars rest : List Char} {v : Node} (h : NumberText n)
    (hfront : n <+: chars ++ rest) (hread : Program.numericAt (chars ++ rest) = some (v, rest)) :
    n.length ≤ chars.length := by
  obtain ⟨r, hahead⟩ := hfront
  obtain ⟨w, left, hleft, hsuffix⟩ := h.numericAt r
  rw [hahead, hread] at hleft
  cases hleft
  have hlength := congrArg List.length hahead
  have hle := hsuffix.length_le
  simp only [List.length_append] at hlength
  omega

/-! ## What is read of a number -/

/-- There is no point among digits. -/
lemma Digits.point_not_mem {a : List Char} (h : Digits a) : '.' ∉ a := fun hmem =>
  absurd (h.wordSet _ hmem) (by decide)

/-- There is no point in a sign. -/
lemma SignText.point_not_mem {s : Option String} {p : List Char} (h : SignText s p) : '.' ∉ p := by
  cases h <;> decide

/-- A sign and what is behind it are what is written. -/
lemma SignText.literal_eq {s : Option String} {p : List Char} (h : SignText s p) (cs : List Char) :
    s.getD "" ++ String.ofList cs = String.ofList (p ++ cs) := by
  rw [String.ofList_append]
  cases h <;> rfl

/-- What is read is a number, and its node has it as it is written. -/
theorem exists_numberText {cs rest : List Char} {v : Node} (h : numericAt cs = some (v, rest)) :
    ∃ n, NumberText n ∧ cs = n ++ rest ∧ v.literal? = some (String.ofList n) ∧
      ((∃ digits sign, v = .decimal digits sign) ↔ '.' ∈ n) := by
  rcases Option.or_eq_some_iff.1 h with h | ⟨-, h⟩
  · obtain ⟨s, p, a, b, hp, ha, hb, -, rfl, rfl⟩ := decimalAt_eq_some.1 h
    refine ⟨_, .decimal hp ha hb, by simp, congrArg some (hp.literal_eq _), ?_⟩
    simp
  · obtain ⟨s, p, a, hp, ha, -, rfl, rfl⟩ := integerAt_eq_some.1 h
    refine ⟨_, .integer hp ha, by simp, congrArg some (hp.literal_eq _), ?_⟩
    simp [hp.point_not_mem, ha.point_not_mem]

/-! ## Numbers at a position -/

/-- When there is a number at a position, and what is one, in every sound state and within any limit
that numbers fit.

* There is one just if some number begins there.
* It is the longest number that begins there. Its node is a decimal just if it has a point, and has
  its sign and digits as they are written.

**Proof sketch.** Whatever number is ahead, what is left behind the one that is read is a part of
what follows it, so that it is no longer. -/
theorem numeric_matches (text : String) (position : Nat) (scope : Scope) {limit : Nat}
    (hlimit : 19 ≤ limit) {run : Run Phrase Node} (hrun : run.Sound grammar (.ofString text)) :
    ((∃ result, (grammar.apply (.ofString text) limit (.named .numeric) position scope run).1 =
        .matched result) ↔
      ∃ n, NumberText n ∧ n <+: text.toList.drop position) ∧
    ∀ result, (grammar.apply (.ofString text) limit (.named .numeric) position scope run).1 =
        .matched result →
      ∃ n v, NumberText n ∧ n <+: text.toList.drop position ∧
        (∀ other, NumberText other → other <+: text.toList.drop position →
          other.length ≤ n.length) ∧
        result = ⟨⟨position + n.length, some (.object v)⟩, scope⟩ ∧
        ((∃ digits sign, v = .decimal digits sign) ↔ '.' ∈ n) ∧
        v.literal? = some (String.ofList n) := by
  have hfits : grammar.fits 19 (.named .numeric) = true := by decide +kernel
  have hdeep := not_tooDeep_of_fits hfits hlimit text position scope run
  constructor
  · rw [readBy_numeric.exists_matched_iff hrun hdeep]
    constructor
    · rintro ⟨v, rest, hread⟩
      obtain ⟨n, hn, hahead, -⟩ := exists_numberText hread
      exact ⟨n, hn, rest, hahead.symm⟩
    · rintro ⟨n, hn, r, hahead⟩
      obtain ⟨v, rest, hread, -⟩ := hn.numericAt r
      exact ⟨v, rest, by rw [← hahead, hread]⟩
  · intro result hresult
    obtain ⟨chars, rest, v, hahead, hread, rfl⟩ :=
      (readBy_numeric.apply_eq_matched_iff hrun hdeep result).1 hresult
    rw [hahead]
    obtain ⟨n, hn, hchars, hliteral, hpoint⟩ := exists_numberText hread
    obtain rfl : chars = n := List.append_cancel_right hchars
    exact ⟨chars, v, hn, List.prefix_append chars rest, fun other hother hfront =>
      hother.length_le hfront hread, rfl, hpoint, hliteral⟩

/-- A number with a sign and grouped digits, in front of two points. -/
theorem numeric_matches_range :
    19 ≤ 19 ∧ (Run.fresh true false).Sound grammar (.ofString "[-1_0..3") ∧
      ∃ result, (grammar.apply (.ofString "[-1_0..3") 19 (.named .numeric) 1 []
        (.fresh true false)).1 =
        .matched result := by
  have hsound : (Run.fresh true false).Sound grammar (.ofString "[-1_0..3") :=
    Run.sound_fresh true false
  have hdigits : Digits ['1', '_', '0'] := .mk (by decide) (.grouped (by decide) .nil)
  exact ⟨le_refl 19, hsound, (numeric_matches _ 1 [] (le_refl 19) hsound).1.2
    ⟨_, .integer .minus hdigits, by decide⟩⟩

end Packrat.Program
