import Packrat.Proofs.Program.Steps
set_option autoImplicit false
set_option relaxedAutoImplicit false

/-!
# Values given to what stands in front

A colon behind an object makes it a key, if a value comes behind the colon. Where the text behind
the object is a program of its own, the colon is that of a symbol, and so the value can only be a
word that a symbol could be as well.

## Main definitions

* `Packrat.Program.GivesValue` — a text starts with a colon and a word that stands for a value.
* `Packrat.Program.Keyless` — no value is given to what stands in front of the text.

## Main results

* `Packrat.Program.keyless_iff` — a program gives a value just if it starts with a colon and a word.
* `Packrat.Program.Keyless.append` — what gives no value does not do so in front of a line feed.
-/

namespace Packrat.Program

/-- The text starts with a word that stands for a value. -/
def StartsWithWord (cs : List Char) : Prop :=
  ['n', 'i', 'l'] <+: cs ∨ ['t', 'r', 'u', 'e'] <+: cs ∨ ['f', 'a', 'l', 's', 'e'] <+: cs

/-- The text starts with a colon and a word that stands for a value. -/
def GivesValue (cs : List Char) : Prop :=
  ∃ pad q, Spaces pad ∧ cs = pad ++ ':' :: q ∧ StartsWithWord q

/-- No value is given to what stands in front of the text. -/
def Keyless (r : List Char) : Prop :=
  ∀ q, r.dropWhile isSpace = ':' :: q → objectAt (q.dropWhile isSpace) = none

/-! ## Objects that start with a letter -/

/-- A word is not read where the text does not start with it. -/
lemma wordAt_eq_none {word : List Char} {node : Node} {cs : List Char} :
    wordAt word node cs = none ↔ ¬ word <+: cs := by
  rw [wordAt, Option.map_eq_none_iff, Option.eq_none_iff_forall_ne_some]
  simp only [ne_eq, dropPrefix?_eq_some]
  constructor
  · rintro h ⟨rest, rfl⟩
    exact h rest rfl
  · rintro h rest rfl
    exact h (List.prefix_append word rest)

/-- Where no simple object is read, no pair is read either, and other objects start with marks. -/
lemma objectAt_eq_none_of_simpleAt {c : Char} {cs : List Char} (h : simpleAt (c :: cs) = none)
    (hrange : (numericFirst c || c == '\x60') = false) (hmarks : c ≠ '\x7b' ∧ c ≠ '[') :
    objectAt (c :: cs) = none := by
  have hpair : keyValueWith objectAt (c :: cs) = none := by
    simp only [keyValueWith, h]
    rfl
  have hend : endpointAt (c :: cs) = none := starts_endpointAt.eq_none (by simpa using hrange)
  have hnone : rangeAt (c :: cs) = none := by
    simp only [rangeAt, hend]
    rfl
  rw [objectAt_eq, objectWith, compositeWith, hashWith, listWith, hpair, hnone, h,
    delimitedWith_eq_none (by simpa using hmarks.1),
    delimitedWith_eq_none (by simpa using hmarks.2)]
  rfl

/-- No simple object starts with a letter but those that start with a word for a value. -/
lemma simpleAt_eq_none_iff {c : Char} {cs : List Char} (hc : letterSet.contains c = true) :
    simpleAt (c :: cs) = none ↔ ¬ StartsWithWord (c :: cs) := by
  obtain ⟨hnumeric, hmark⟩ := numericFirst_of_letterSet hc
  have hnumber : numericAt (c :: cs) = none := starts_numericAt.eq_none (by simpa using hnumeric)
  have hmarked : (characterAt (c :: cs)).or ((stringAt (c :: cs)).or (regexAt (c :: cs))) = none :=
    starts_markedAt.eq_none (by simpa using hmark)
  simp only [simpleAt, hnumber, hmarked, Option.or_none, booleanAt, nilAt, trueAt,
    falseAt, Option.or_eq_none_iff, wordAt_eq_none, StartsWithWord, not_or]

/-- An object that starts with a letter starts with a word. -/
lemma objectAt_eq_none_iff {c : Char} {cs : List Char} (hc : letterSet.contains c = true) :
    objectAt (c :: cs) = none ↔ ¬ StartsWithWord (c :: cs) := by
  obtain ⟨hnumeric, -⟩ := numericFirst_of_letterSet hc
  rw [← simpleAt_eq_none_iff hc]
  constructor
  · intro h
    rw [objectAt_eq] at h
    exact (Option.or_eq_none_iff.1 h).2
  · intro h
    refine objectAt_eq_none_of_simpleAt h ?_ ⟨?_, ?_⟩
    · rw [hnumeric, Bool.false_or, beq_eq_false_iff_ne]
      rintro rfl
      exact absurd hc (by decide)
    · rintro rfl
      exact absurd hc (by decide)
    · rintro rfl
      exact absurd hc (by decide)

/-! ## Values given to what stands in front -/

/-- There are no spaces to drop in front of a letter. -/
lemma dropWhile_letter {c : Char} (hc : letterSet.contains c = true) (cs : List Char) :
    (c :: cs).dropWhile isSpace = c :: cs := by
  refine List.dropWhile_cons_of_neg fun hspace => ?_
  rcases isSpace_iff.1 hspace with rfl | rfl <;> exact absurd hc (by decide)

/-- A statement that starts with a colon starts with a symbol. -/
lemma letter_of_colon {q : List Char} (h : (statementsAt (':' :: q)).2 = []) :
    ∃ c more, q = c :: more ∧ letterSet.contains c = true := by
  have hsimple : simpleAt (':' :: q) ≠ none := by
    intro hnone
    have hobject := objectAt_eq_none_of_simpleAt hnone (by decide) (by decide)
    rcases exists_piece (List.cons_ne_nil _ _) h with ⟨c, more, hcons, hblank⟩ |
      ⟨v, rest, hcomment⟩ | ⟨v, rest, hexpression⟩
    · rw [← (List.cons.inj hcons).1] at hblank
      exact absurd hblank (by decide)
    · rw [commentAt_of_head (by simp)] at hcomment
      cases hcomment
    · rw [expressionAt_eq_none hobject] at hexpression
      cases hexpression
  rw [simpleAt_eq_symbolAt] at hsimple
  obtain ⟨⟨v, rest⟩, hread⟩ := Option.ne_none_iff_exists'.1 hsimple
  obtain ⟨name, hne, hname, -, hq, -⟩ := symbolAt_eq_some.1 hread
  obtain ⟨c, name, rfl⟩ := List.exists_cons_of_ne_nil hne
  exact ⟨c, name ++ rest, (List.cons.inj hq).2, hname c (by simp)⟩

/-- A word for a value starts with a letter. -/
lemma StartsWithWord.letter {q : List Char} (h : StartsWithWord q) :
    ∃ c more, q = c :: more ∧ letterSet.contains c = true := by
  rcases h with ⟨more, rfl⟩ | ⟨more, rfl⟩ | ⟨more, rfl⟩ <;> exact ⟨_, _, rfl, by decide⟩

/-- Within an accepted text, a value comes behind a colon just if a word does. -/
lemma keyless_iff {r : List Char} (h : (statementsAt r).2 = []) :
    Keyless r ↔ ¬ GivesValue r := by
  constructor
  · rintro hr ⟨pad, q, hpad, rfl, hword⟩
    obtain ⟨c, more, rfl, hc⟩ := hword.letter
    have hnone := hr _ (dropWhile_pad hpad rfl _)
    rw [dropWhile_letter hc, objectAt_eq_none_iff hc] at hnone
    exact hnone hword
  · intro hr q hq
    obtain ⟨pad, hpad, hsplit⟩ := exists_spaces r
    rw [hq] at hsplit
    rw [← statementsAt_dropSpaces, hq] at h
    obtain ⟨c, more, rfl, hc⟩ := letter_of_colon h
    rw [dropWhile_letter hc, objectAt_eq_none_iff hc]
    exact fun hword => hr ⟨pad, _, hpad, hsplit, hword⟩

/-- A word does not reach over a line feed. -/
lemma prefix_of_newline {word cs more : List Char} (h : word <+: cs ++ '\n' :: more)
    (hword : '\n' ∉ word) : word <+: cs := by
  by_cases hle : word.length ≤ cs.length
  · exact List.prefix_of_prefix_length_le h (List.prefix_append cs _) hle
  · have hlonger : cs ++ ['\n'] <+: word := by
      refine List.prefix_of_prefix_length_le ?_ h ?_
      · exact ⟨more, by simp⟩
      · simp only [List.length_append, List.length_cons, List.length_nil]
        omega
    exact absurd (hlonger.subset (by simp)) hword

/-- What gives no value does not do so in front of a line feed. -/
lemma Keyless.append {r : List Char} (hr : Keyless r) (h : (statementsAt r).2 = [])
    (more : List Char) : Keyless (r ++ '\n' :: more) := by
  intro q hq
  obtain ⟨pad, hpad, hsplit⟩ := exists_spaces r
  rw [← statementsAt_dropSpaces] at h
  cases hleft : r.dropWhile isSpace with
  | nil =>
    rw [hleft, List.append_nil] at hsplit
    rw [hsplit, dropWhile_pad hpad rfl] at hq
    cases hq
  | cons c left =>
    rw [hleft] at hsplit h
    have hc : isSpace c = false := by
      have hnot := List.head?_dropWhile_not isSpace r
      rw [hleft] at hnot
      simpa using hnot
    rw [hsplit, List.append_assoc, List.cons_append, dropWhile_pad hpad hc] at hq
    obtain ⟨rfl, rfl⟩ := List.cons.inj hq
    obtain ⟨d, letters, rfl, hd⟩ := letter_of_colon h
    have hnone := hr _ hleft
    rw [dropWhile_letter hd, objectAt_eq_none_iff hd] at hnone
    rw [List.cons_append, dropWhile_letter hd, objectAt_eq_none_iff hd, ← List.cons_append]
    exact fun hword => hnone (hword.imp (prefix_of_newline · (by decide))
      (.imp (prefix_of_newline · (by decide)) (prefix_of_newline · (by decide))))

end Packrat.Program
