import Packrat.Proofs.Parsing.Beyond
import Packrat.Proofs.Program.Fragment
import Packrat.Proofs.Program.Spelling
import Packrat.Proofs.Program.Termination
set_option autoImplicit false
set_option relaxedAutoImplicit false

/-!
# Phrases at a position of a text

At whatever position a phrase is applied that stands for a node, and in whatever sound state, it
matches the characters that its reader takes off those ahead, and the node that it reads is what the
match produces. Behind the end of the text there is nothing ahead, and such a phrase does not match.

## Main definitions

* `Packrat.Program.Phrase.moves` — phrases that take a character wherever they match.
* `Packrat.Program.ReadBy` — the reader of a phrase that stands for a node.

## Main results

* `Packrat.Program.ReadBy.apply_eq_matched_iff`, `Packrat.Program.ReadBy.exists_matched_iff` — what
  such a phrase matches at a position, and when it does.
* `Packrat.Program.exists_yields_named` — at every position of a text, a phrase means something.
-/

namespace Packrat.Program

/-- Phrases that take a character wherever they match. -/
def Phrase.moves (x : Phrase) : Bool := x.takes || decide (x = .expression) || decide (x = .comment)

/-- Objects, expressions and comments take a character wherever they match. -/
lemma advancing_moves : grammar.Advancing Phrase.moves := advancing_of_all (by decide +kernel)

/-- A phrase that stands for a node, which a reader reads off the characters ahead if there are
any. -/
structure ReadBy (x : Phrase) (read : Reader) : Prop where
  read_eq : ∀ cs, x.read cs = whole (read cs)
  moves : x.moves = true
  read_nil : read [] = none

/-- A document is read by its reader. -/
lemma readBy_hereDoc : ReadBy .hereDoc hereDocAt := ⟨fun _ => rfl, rfl, rfl⟩

/-- A number is read by its reader. -/
lemma readBy_numeric : ReadBy .numeric numericAt := ⟨fun _ => rfl, rfl, rfl⟩

/-- A reader that takes a character wherever it matches reads nothing at the end of a text. -/
lemma read_nil_of_advances {read : Reader} (h : Advances read) : read [] = none := by
  refine Option.eq_none_iff_forall_ne_some.2 fun ⟨v, rest⟩ hread => ?_
  obtain ⟨taken, hne, hnil⟩ := h [] v rest hread
  exact hne (List.append_eq_nil_iff.1 hnil.symm).1

/-- An object is read by its reader. -/
lemma readBy_object : ReadBy .object objectAt :=
  ⟨fun _ => rfl, rfl, read_nil_of_advances advances_objectAt⟩

/-- An expression is read by its reader. -/
lemma readBy_expression : ReadBy .expression expressionAt :=
  ⟨fun _ => rfl, rfl, read_nil_of_advances advances_expressionAt⟩

/-- A comment is read by its reader. -/
lemma readBy_comment : ReadBy .comment commentAt := ⟨fun _ => rfl, rfl, rfl⟩

section

variable {x : Phrase} {text : String} {position : Nat} {scope : Scope}

/-- What is ahead at a position is the end of the text, and begins there. -/
lemma place_drop (hp : position ≤ text.length) :
    text.toList.drop position <:+ (Text.ofString text).chars.toList ∧
      (Text.ofString text).place (text.toList.drop position) = position := by
  constructor
  · exact List.drop_suffix _ _
  · rw [Text.place, Text.size_ofString, List.length_drop, String.length_toList]
    omega

/-- At a position of the text, a phrase means what its reader reads there. -/
lemma yields_named (hp : position ≤ text.length) {outcome : Outcome Node (Match Node)}
    (h : grammar.Yields (.ofString text) (.named x) position scope outcome) :
    outcome = (taken scope (x.read (text.toList.drop position))).map
      (Text.ofString text).matchOf := by
  obtain ⟨hcs, hplace⟩ := place_drop hp
  rw [← hplace] at h
  rw [(solves_grammar text).yields hcs h, Rule.take]
  cases x.read (text.toList.drop position) <;> rfl

/-- At every position of a text, a phrase means something. -/
theorem exists_yields_named (x : Phrase) (scope : Scope) (hp : position ≤ text.length) :
    ∃ outcome, grammar.Yields (.ofString text) (.named x) position scope outcome := by
  obtain ⟨hcs, hplace⟩ := place_drop hp
  have hends := (solves_grammar text).ends (fun x _ => bounded_phrase x) (bounded_phrase x) scope
    (text.toList.drop position)
    ⟨hcs, by rw [Text.size_ofString, List.length_drop, String.length_toList]; simp⟩
    (.fresh false false) rfl
  rw [hplace] at hends
  exact ⟨_, Grammar.yields_apply (Run.sound_fresh false false) hends⟩

/-- What such a reader leaves is the end of what it is given. -/
lemma ReadBy.suffix {read : Reader} (h : ReadBy x read) {cs rest : List Char} {v : Node}
    (hread : read cs = some (v, rest)) : rest <:+ cs := by
  have hpiece : x.read cs = some ⟨some (.object v), rest⟩ := by
    rw [h.read_eq, hread]
    rfl
  exact x.read_suffix _ hpiece

/-- What a phrase means that stands for a node: it matches the characters that are taken off those
ahead. -/
theorem ReadBy.yields_matched_iff {read : Reader} (h : ReadBy x read)
    {outcome : Outcome Node (Match Node)} {result : Match Node}
    (hyields : grammar.Yields (.ofString text) (.named x) position scope outcome) :
    outcome = .matched result ↔ ∃ chars rest v, text.toList.drop position = chars ++ rest ∧
      read (chars ++ rest) = some (v, rest) ∧
      result = ⟨⟨position + chars.length, some (.object v)⟩, scope⟩ := by
  by_cases hp : position ≤ text.length
  · obtain ⟨hcs, hplace⟩ := place_drop hp
    rw [yields_named hp hyields, h.read_eq]
    cases hread : read (text.toList.drop position) with
    | none =>
      refine ⟨nofun, ?_⟩
      rintro ⟨chars, rest, v, hahead, hchars, -⟩
      rw [← hahead, hread] at hchars
      cases hchars
    | some found =>
      obtain ⟨v, rest⟩ := found
      obtain ⟨chars, hahead⟩ := h.suffix hread
      have hstop := Text.place_add hcs hahead.symm
      rw [hplace] at hstop
      constructor
      · rintro ⟨⟩
        exact ⟨chars, rest, v, hahead.symm, by rw [hahead, hread], by rw [hstop]; rfl⟩
      · rintro ⟨chars', rest', v', hahead', hread', rfl⟩
        rw [← hahead', hread] at hread'
        cases hread'
        obtain rfl : chars = chars' := List.append_cancel_right (hahead.trans hahead')
        rw [hstop]
        rfl
  · have hbeyond := Nat.lt_of_not_le hp
    constructor
    · rintro rfl
      have hstretch := hyields.stretch advancing_moves
      rw [Text.size_ofString] at hstretch
      rcases hstretch with hinside | ⟨-, -, hstays⟩
      · have hle := hinside.start_le
        have hle' := hinside.stop_le
        rw [Text.size_ofString] at hle'
        omega
      · exact absurd h.moves (by rw [Rule.advances] at hstays; simp [hstays])
    · rintro ⟨chars, rest, v, hahead, hread, -⟩
      have hnil : text.toList.drop position = [] :=
        List.drop_eq_nil_of_le (by rw [String.length_toList]; exact Nat.le_of_lt hbeyond)
      rw [← hahead, hnil, h.read_nil] at hread
      cases hread

/-- What a phrase matches that stands for a node, in a sound state and within its limit: the
characters that are taken off those ahead. -/
theorem ReadBy.apply_eq_matched_iff {read : Reader} (h : ReadBy x read) {limit : Nat}
    {run : Run Phrase Node} (hrun : run.Sound grammar (.ofString text))
    (hdeep : (grammar.apply (.ofString text) limit (.named x) position scope run).1 ≠
      .stopped .tooDeep)
    (result : Match Node) :
    (grammar.apply (.ofString text) limit (.named x) position scope run).1 = .matched result ↔
      ∃ chars rest v, text.toList.drop position = chars ++ rest ∧
        read (chars ++ rest) = some (v, rest) ∧
        result = ⟨⟨position + chars.length, some (.object v)⟩, scope⟩ :=
  h.yields_matched_iff (Grammar.yields_apply hrun hdeep)

/-- When a phrase matches that stands for a node: whenever something is read of the characters
ahead. -/
theorem ReadBy.exists_matched_iff {read : Reader} (h : ReadBy x read) {limit : Nat}
    {run : Run Phrase Node} (hrun : run.Sound grammar (.ofString text))
    (hdeep : (grammar.apply (.ofString text) limit (.named x) position scope run).1 ≠
      .stopped .tooDeep) :
    (∃ result, (grammar.apply (.ofString text) limit (.named x) position scope run).1 =
      .matched result) ↔
      ∃ v rest, read (text.toList.drop position) = some (v, rest) := by
  simp only [h.apply_eq_matched_iff hrun hdeep]
  constructor
  · rintro ⟨_, chars, rest, v, hahead, hread, -⟩
    exact ⟨v, rest, by rw [hahead, hread]⟩
  · rintro ⟨v, rest, hread⟩
    obtain ⟨chars, hahead⟩ := h.suffix hread
    exact ⟨_, chars, rest, v, hahead.symm, by rw [hahead, hread], rfl⟩

end

/-- A phrase that fits a limit does not exceed any larger one. -/
lemma not_tooDeep_of_fits {x : Phrase} {low high : Nat} (hfits : grammar.fits low (.named x) = true)
    (hle : low ≤ high) (text : String) (position : Nat) (scope : Scope) (run : Run Phrase Node) :
    (grammar.apply (.ofString text) high (.named x) position scope run).1 ≠ .stopped .tooDeep := by
  have hshallow : (grammar.apply (.ofString text) low (.named x) position scope run).1 ≠
      .stopped .tooDeep := Grammar.shallow_apply low hfits position scope run
  rw [grammar.apply_of_le hle hshallow]
  exact hshallow

end Packrat.Program
