import Packrat.Proofs.Program.Scanner
import Packrat.Proofs.Text.Split
set_option autoImplicit false
set_option relaxedAutoImplicit false

/-!
# Where simple objects end

A simple object in the middle of a text is read just as it is on its own, as long as what follows
does not continue it. Letters and digits may continue it, and so may a point with a digit behind it.
A document takes the line break behind its label, so it cannot be followed by anything before that;
if that is a carriage return alone, it takes in a line feed that follows.

## Main definitions

* `Packrat.Program.Follows` — what may follow an object without continuing it.
* `Packrat.Program.behind` — what is left of the characters that follow an object.
* `Packrat.Program.Reader.Cuts` — a reader reads a text in front of others as it does on its own.

## Main results

* `Packrat.Program.cuts_simpleAt` — simple objects are read in front of others as on their own.
-/

namespace Packrat.Program

/-- The text ends with a line break. -/
def EndsLine (a : List Char) : Prop := a.getLast?.any endsLine = true

/-- Whether a text ends with a line break can be decided. -/
instance : DecidablePred EndsLine := fun _ => inferInstanceAs (Decidable (_ = true))

/-- No digit comes next, alone or behind an underscore. -/
def DigitsEnd (r : List Char) : Prop :=
  ∀ c cs, r = c :: cs → digitSet.contains c = false ∧
    (c = '_' → ∀ d ds, cs = d :: ds → digitSet.contains d = false)

/-- The characters do not continue a number, a symbol or a word. -/
structure Calm (r : List Char) : Prop where
  word : ∀ c ∈ r.head?, wordSet.contains c = false
  point : ∀ d cs, r = '.' :: d :: cs → digitSet.contains d = false

/-- What may follow an object without continuing it. Nothing follows a document before the end of
its line, and anything does behind that. -/
def Follows (a r : List Char) : Prop := r = [] ∨ EndsLine a ∨ (Calm r ∧ a.head? ≠ some '<')

/-- What is left of the characters that follow an object. A document that ends with a carriage
return takes in a line feed. -/
def behind (a r : List Char) : List Char :=
  if a.getLast? = some '\r' ∧ r.head? = some '\n' then r.tail else r

/-- Whatever the reader reads, it reads on its own as well; and it reads the same in front of what
may follow. Only documents end with a line break. -/
structure Reader.Cuts (read : Reader) : Prop where
  alone : ∀ cs v rest, read cs = some (v, rest) → ∃ a, a ≠ [] ∧ cs = a ++ rest ∧
    read a = some (v, []) ∧ behind a rest = rest ∧
    (rest ≠ [] → a.head? = some '<' → EndsLine a)
  before : ∀ a v r, read a = some (v, []) → Follows a r → read (a ++ r) = some (v, behind a r)
  line : ∀ a v, read a = some (v, []) → EndsLine a → a.head? = some '<'

/-- The reader reads nothing that starts with another character. -/
def Reader.Starts (read : Reader) (first : Char → Bool) : Prop :=
  ∀ cs v rest, read cs = some (v, rest) → ∃ c ∈ cs.head?, first c = true

/-! ## Small facts about characters -/

/-- The characters in front of those that are left are the ones that were taken. -/
@[simp] lemma front_append (a rest : List Char) : front (a ++ rest) rest = a := by
  simp [front]

/-- The characters in front of those that do not pass a test are the ones that do. -/
lemma front_dropWhile (test : Char → Bool) (cs : List Char) :
    front cs (cs.dropWhile test) = cs.takeWhile test := by
  have hcs : cs = cs.takeWhile test ++ cs.dropWhile test := by simp
  calc front cs (cs.dropWhile test)
      = front (cs.takeWhile test ++ cs.dropWhile test) (cs.dropWhile test) := by rw [← hcs]
    _ = cs.takeWhile test := front_append _ _

/-- Characters behind those that are left do not matter. -/
lemma front_append_append {a rest : List Char} (h : rest <:+ a) (r : List Char) :
    front (a ++ r) (rest ++ r) = front a rest := by
  obtain ⟨taken, rfl⟩ := h
  rw [List.append_assoc, front_append, front_append]

/-- A character is dropped if it passes the test. -/
lemma dropChar?_eq_some {test : Char → Bool} {cs rest : List Char} :
    dropChar? test cs = some rest ↔ ∃ c, test c = true ∧ cs = c :: rest := by
  cases cs with
  | nil => simp [dropChar?]
  | cons c cs =>
    simp only [dropChar?, Option.ite_none_right_eq_some, Option.some.injEq, List.cons.injEq]
    constructor
    · rintro ⟨hc, rfl⟩
      exact ⟨c, hc, rfl, rfl⟩
    · rintro ⟨_, hc, rfl, rfl⟩
      exact ⟨hc, rfl⟩

/-- A character that passes the test is dropped. -/
lemma dropChar?_cons {test : Char → Bool} {c : Char} {cs : List Char} (h : test c = true) :
    dropChar? test (c :: cs) = some cs := if_pos h

/-- A prefix is dropped if the text starts with it. -/
lemma dropPrefix?_eq_some {cs s rest : List Char} :
    cs.dropPrefix? s = some rest ↔ cs = s ++ rest := by
  simp [List.dropPrefix?_eq_some_iff]

/-- A digit is a character of words. -/
lemma wordSet_of_digitSet {c : Char} (h : digitSet.contains c = true) :
    wordSet.contains c = true := by
  simp only [CharSet.contains, digitSet, wordSet, List.any_cons, List.any_nil, Bool.or_false] at h ⊢
  simp [h]

/-- A letter is a character of words. -/
lemma wordSet_of_letterSet {c : Char} (h : letterSet.contains c = true) :
    wordSet.contains c = true := by
  simp only [CharSet.contains, letterSet, wordSet, List.any_cons, List.any_nil,
    Bool.or_false] at h ⊢
  rw [Bool.or_eq_true] at h ⊢
  exact .inr (by simpa using h)

/-- A character of words is no part of a line break. -/
lemma not_endsLine_of_wordSet {c : Char} (h : wordSet.contains c = true) : endsLine c = false := by
  by_contra hc
  simp only [endsLine, decide_eq_false_iff_not, not_not] at hc
  rcases hc with rfl | rfl <;> exact absurd h (by decide)

/-- A text ends with a line break if its last part does. -/
lemma endsLine_append {a b : List Char} (h : b ≠ []) : EndsLine (a ++ b) ↔ EndsLine b := by
  rw [EndsLine, EndsLine, List.getLast?_append, List.getLast?_eq_some_getLast h]
  rfl

/-- A text does not end with a line break if its last character is none. -/
lemma not_endsLine_concat {a : List Char} {c : Char} (h : endsLine c = false) :
    ¬ EndsLine (a ++ [c]) := by
  simp [EndsLine, h]

/-- At the end there is nothing to take in. -/
lemma behind_nil (a : List Char) : behind a [] = [] := by
  simp [behind]

/-- Only a text that ends with a line break takes in anything that follows. -/
lemma behind_of_not_endsLine {a : List Char} (h : ¬ EndsLine a) (r : List Char) :
    behind a r = r := by
  refine if_neg fun ⟨hlast, _⟩ => h ?_
  rw [EndsLine, hlast]
  decide

/-- A reader of pieces that lie within a line cuts them off if it does so in front of characters
that do not continue them. -/
lemma Reader.Cuts.of_within {read : Reader}
    (alone : ∀ cs v rest, read cs = some (v, rest) → ∃ a, a ≠ [] ∧ cs = a ++ rest ∧
      read a = some (v, []))
    (before : ∀ a v r, read a = some (v, []) → Calm r → read (a ++ r) = some (v, r))
    (shape : ∀ a v, read a = some (v, []) → ¬ EndsLine a ∧ a.head? ≠ some '<') : read.Cuts where
  alone cs v rest h := by
    obtain ⟨a, hne, hcs, ha⟩ := alone cs v rest h
    obtain ⟨hline, hmark⟩ := shape a v ha
    exact ⟨a, hne, hcs, ha, behind_of_not_endsLine hline rest, fun _ hm => absurd hm hmark⟩
  before a v r ha hr := by
    obtain ⟨hline, hmark⟩ := shape a v ha
    rw [behind_of_not_endsLine hline]
    rcases hr with rfl | hend | ⟨hcalm, -⟩
    · simpa using ha
    · exact absurd hend hline
    · exact before a v r ha hcalm
  line a v ha hline := absurd hline (shape a v ha).1

/-- Of two readers that start with different characters, the first is out of the way where the
second reads. -/
lemma Reader.Cuts.or {read other : Reader} {first : Char → Bool} (h : read.Cuts) (h' : other.Cuts)
    (hs : read.Starts first)
    (hd : ∀ cs v rest, other cs = some (v, rest) → ∀ c ∈ cs.head?, first c = false) :
    Reader.Cuts fun cs => (read cs).or (other cs) where
  alone cs v rest hread := by
    rcases Option.or_eq_some_iff.1 hread with hread | ⟨hnone, hread⟩
    · obtain ⟨a, hne, hcs, ha, hrest⟩ := h.alone cs v rest hread
      exact ⟨a, hne, hcs, Option.or_eq_some_iff.2 (.inl ha), hrest⟩
    · obtain ⟨a, hne, hcs, ha, hrest⟩ := h'.alone cs v rest hread
      refine ⟨a, hne, hcs, Option.or_eq_some_iff.2 (.inr ⟨?_, ha⟩), hrest⟩
      by_contra hsome
      obtain ⟨⟨w, left⟩, hw⟩ := Option.ne_none_iff_exists'.1 hsome
      obtain ⟨c, hc, hfirst⟩ := hs a w left hw
      exact absurd hfirst (by simp [hd a v [] ha c hc])
  before a v r ha hr := by
    rcases Option.or_eq_some_iff.1 ha with ha | ⟨hnone, ha⟩
    · exact Option.or_eq_some_iff.2 (.inl (h.before a v r ha hr))
    · refine Option.or_eq_some_iff.2 (.inr ⟨?_, h'.before a v r ha hr⟩)
      by_contra hsome
      obtain ⟨⟨w, left⟩, hw⟩ := Option.ne_none_iff_exists'.1 hsome
      obtain ⟨c, hc, hfirst⟩ := hs _ w left hw
      have hne : a ≠ [] := by
        rintro rfl
        obtain ⟨b, hb, hnil, -⟩ := h'.alone [] v [] ha
        exact hb (by simpa using hnil.symm)
      rw [List.head?_append_of_ne_nil _ hne] at hc
      exact absurd hfirst (by simp [hd a v [] ha c hc])
  line a v ha := by
    rcases Option.or_eq_some_iff.1 ha with ha | ⟨-, ha⟩
    · exact h.line a v ha
    · exact h'.line a v ha

/-- What one of two readers reads starts as the one or the other does. -/
lemma Reader.Starts.or {read other : Reader} {first second : Char → Bool} (h : read.Starts first)
    (h' : other.Starts second) :
    Reader.Starts (fun cs => (read cs).or (other cs)) fun c => first c || second c := by
  intro cs v rest hread
  rcases Option.or_eq_some_iff.1 hread with hread | ⟨-, hread⟩
  · obtain ⟨c, hc, hfirst⟩ := h cs v rest hread
    exact ⟨c, hc, by simp [hfirst]⟩
  · obtain ⟨c, hc, hsecond⟩ := h' cs v rest hread
    exact ⟨c, hc, by simp [hsecond]⟩

/-! ## Words, characters and texts between marks -/

/-- A word is read in front of other characters as on its own, if it is neither empty nor a document
and ends no line. -/
lemma cuts_wordAt {word : List Char} (node : Node) (hne : word ≠ []) (hline : ¬ EndsLine word)
    (hmark : word.head? ≠ some '<') : (wordAt word node).Cuts := by
  have hread : ∀ {cs v rest}, wordAt word node cs = some (v, rest) ↔
      v = node ∧ cs = word ++ rest := by
    intro cs v rest
    simp only [wordAt, Option.map_eq_some_iff, dropPrefix?_eq_some, Prod.mk.injEq]
    constructor
    · rintro ⟨_, rfl, rfl, rfl⟩
      exact ⟨rfl, rfl⟩
    · rintro ⟨rfl, rfl⟩
      exact ⟨_, rfl, rfl, rfl⟩
  refine .of_within (fun cs v rest h => ?_) (fun a v r h _ => ?_) (fun a v h => ?_)
  · obtain ⟨rfl, rfl⟩ := hread.1 h
    exact ⟨word, hne, rfl, hread.2 ⟨rfl, by simp⟩⟩
  · obtain ⟨rfl, rfl⟩ := hread.1 h
    exact hread.2 ⟨rfl, by simp⟩
  · obtain ⟨-, rfl⟩ := hread.1 h
    simpa using ⟨hline, hmark⟩

/-- A character is its mark and a character of words. -/
lemma characterAt_eq_some {cs rest : List Char} {v : Node} :
    characterAt cs = some (v, rest) ↔ ∃ c, wordSet.contains c = true ∧
      cs = '\x60' :: c :: rest ∧ v = .character (String.ofList [c]) := by
  simp only [characterAt, bind, Option.bind_eq_some_iff, dropChar?_eq_some, beq_iff_eq,
    Option.some.injEq, Prod.mk.injEq]
  constructor
  · rintro ⟨_, ⟨_, rfl, rfl⟩, _, ⟨c, hc, rfl⟩, rfl, rfl⟩
    exact ⟨c, hc, rfl, by rw [← List.singleton_append, front_append]⟩
  · rintro ⟨c, hc, rfl, rfl⟩
    exact ⟨_, ⟨_, rfl, rfl⟩, _, ⟨c, hc, rfl⟩, by rw [← List.singleton_append, front_append], rfl⟩

/-- A character is read in front of other characters as on its own. -/
lemma cuts_characterAt : characterAt.Cuts := by
  refine .of_within (fun cs v rest h => ?_) (fun a v r h _ => ?_) (fun a v h => ?_)
  · obtain ⟨c, hc, rfl, rfl⟩ := characterAt_eq_some.1 h
    exact ⟨['\x60', c], by simp, rfl, characterAt_eq_some.2 ⟨c, hc, rfl, rfl⟩⟩
  · obtain ⟨c, hc, rfl, rfl⟩ := characterAt_eq_some.1 h
    exact characterAt_eq_some.2 ⟨c, hc, rfl, rfl⟩
  · obtain ⟨c, hc, rfl, rfl⟩ := characterAt_eq_some.1 h
    rw [← List.singleton_append]
    exact ⟨not_endsLine_concat (not_endsLine_of_wordSet hc), by simp⟩

/-- A symbol is a colon and letters, up to where they end. -/
lemma symbolAt_eq_some {cs rest : List Char} {v : Node} :
    symbolAt cs = some (v, rest) ↔ ∃ name, name ≠ [] ∧ (∀ c ∈ name, letterSet.contains c = true) ∧
      (∀ c ∈ rest.head?, letterSet.contains c = false) ∧ cs = ':' :: (name ++ rest) ∧
      v = .string (String.ofList name) := by
  simp only [symbolAt, bind, Option.bind_eq_some_iff, dropChar?_eq_some, beq_iff_eq,
    Option.some.injEq, Prod.mk.injEq]
  constructor
  · rintro ⟨cs, ⟨_, rfl, rfl⟩, _, ⟨c, hc, rfl⟩, rfl, rfl⟩
    obtain ⟨a, r, hcs, ha, hr⟩ := exists_split letterSet.contains (c :: _)
    obtain ⟨htake, hdrop⟩ := takeWhile_dropWhile_of_split ha hr
    rw [hcs, htake, hdrop]
    refine ⟨a, ?_, ha, hr, rfl, rfl⟩
    rintro rfl
    rw [List.nil_append] at hcs
    exact absurd hc (by simp [hr c (by rw [← hcs]; rfl)])
  · rintro ⟨name, hne, hname, hr, rfl, rfl⟩
    obtain ⟨htake, hdrop⟩ := takeWhile_dropWhile_of_split hname hr
    refine ⟨_, ⟨_, rfl, rfl⟩, ?_⟩
    rw [htake, hdrop]
    cases name with
    | nil => exact absurd rfl hne
    | cons c name => exact ⟨_, ⟨c, hname c (by simp), rfl⟩, rfl, rfl⟩

/-- A symbol is read in front of other characters as on its own. -/
lemma cuts_symbolAt : symbolAt.Cuts := by
  refine .of_within (fun cs v rest h => ?_) (fun a v r h hr => ?_) (fun a v h => ?_)
  · obtain ⟨name, hne, hname, -, rfl, rfl⟩ := symbolAt_eq_some.1 h
    exact ⟨':' :: name, by simp, rfl, symbolAt_eq_some.2 ⟨name, hne, hname, by simp, by simp, rfl⟩⟩
  · obtain ⟨name, hne, hname, -, rfl, rfl⟩ := symbolAt_eq_some.1 h
    refine symbolAt_eq_some.2 ⟨name, hne, hname, fun c hc => ?_, by simp, rfl⟩
    have hword := hr.word c hc
    by_contra hletter
    exact absurd (wordSet_of_letterSet (by simpa using hletter)) (by simp [hword])
  · obtain ⟨name, hne, hname, -, rfl, rfl⟩ := symbolAt_eq_some.1 h
    refine ⟨?_, by simp⟩
    obtain ⟨initial, c, rfl⟩ := (List.eq_nil_or_concat' name).resolve_left hne
    rw [List.append_nil, ← List.cons_append]
    exact not_endsLine_concat (not_endsLine_of_wordSet (wordSet_of_letterSet (hname c (by simp))))

/-- A text between two marks goes up to the next one. -/
lemma quotedAt_eq_some {mark : Char} {make : String → Node} {cs rest : List Char} {v : Node} :
    quotedAt mark make cs = some (v, rest) ↔ ∃ body, mark ∉ body ∧
      cs = mark :: (body ++ mark :: rest) ∧ v = make (String.ofList body) := by
  simp only [quotedAt, bind, Option.bind_eq_some_iff, dropChar?_eq_some, beq_iff_eq,
    Option.some.injEq, Prod.mk.injEq]
  constructor
  · rintro ⟨cs, ⟨_, rfl, rfl⟩, _, ⟨c, rfl, hc⟩, rfl, rfl⟩
    refine ⟨cs.takeWhile (· != c), fun hmem => ?_, ?_, rfl⟩
    · simpa using List.mem_takeWhile_imp hmem
    · rw [← hc, List.takeWhile_append_dropWhile]
  · rintro ⟨body, hbody, rfl, rfl⟩
    have hend : ∀ c ∈ (mark :: rest).head?, (c != mark) = false := by simp
    obtain ⟨htake, hdrop⟩ := takeWhile_dropWhile_of_split (bne_of_not_mem hbody) hend
    refine ⟨_, ⟨_, rfl, rfl⟩, rest, ⟨mark, rfl, hdrop⟩, ?_, rfl⟩
    rw [htake]

/-- A text between two marks is read in front of other characters as on its own. -/
lemma cuts_quotedAt {mark : Char} (make : String → Node) (hline : endsLine mark = false)
    (hmark : mark ≠ '<') : (quotedAt mark make).Cuts := by
  refine .of_within (fun cs v rest h => ?_) (fun a v r h hr => ?_) (fun a v h => ?_)
  · obtain ⟨body, hbody, rfl, rfl⟩ := quotedAt_eq_some.1 h
    exact ⟨mark :: (body ++ [mark]), by simp, by simp,
      quotedAt_eq_some.2 ⟨body, hbody, rfl, rfl⟩⟩
  · obtain ⟨body, hbody, rfl, rfl⟩ := quotedAt_eq_some.1 h
    exact quotedAt_eq_some.2 ⟨body, hbody, by simp, rfl⟩
  · obtain ⟨body, hbody, rfl, rfl⟩ := quotedAt_eq_some.1 h
    refine ⟨?_, by simpa using hmark⟩
    rw [← List.cons_append]
    exact not_endsLine_concat hline

end Packrat.Program
