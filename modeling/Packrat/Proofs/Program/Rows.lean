import Mathlib.Data.List.DropRight
import Packrat.Proofs.Program.Spelling
set_option autoImplicit false
set_option relaxedAutoImplicit false

/-!
# Rows of elements

Elements between marks are read one by one, a comma between each two. The reader of elements reads
the rows of what it should read as elements, if it reads each element up to its end.

Documents are why this takes care: a document that ends with a carriage return takes in a line feed
that follows, which is a blank like those around it.

## Main definitions

* `Packrat.Program.ReadsOnly`, `Packrat.Program.ReadsAll` — how a reader goes with the elements.

## Main results

* `Packrat.Program.exists_delimited` — what is read between marks is a row of elements.
* `Packrat.Program.delimitedWith_append` — a row of elements between marks is read.
-/

namespace Packrat.Program

/-! ## Runs of blanks -/

/-- The spaces are the space and the tab. -/
lemma isSpace_iff {c : Char} : isSpace c = true ↔ c = ' ' ∨ c = '\t' := by
  simp [isSpace]

/-- The blank characters are the spaces and those of line breaks. -/
lemma isBlank_iff {c : Char} : isBlank c = true ↔ c = ' ' ∨ c = '\t' ∨ c = '\r' ∨ c = '\n' := by
  simp only [isBlank, isSpace, endsLine, Bool.or_eq_true, beq_iff_eq, decide_eq_true_eq]
  tauto

/-- The spaces ahead are dropped. -/
lemma exists_spaces (cs : List Char) :
    ∃ s, Spaces s ∧ cs = s ++ cs.dropWhile isSpace :=
  ⟨cs.takeWhile isSpace, fun _ hc => isSpace_iff.1 (List.mem_takeWhile_imp hc), by simp⟩

/-- The blanks ahead are dropped. -/
lemma exists_blanks (cs : List Char) :
    ∃ s, Blanks s ∧ cs = s ++ cs.dropWhile isBlank :=
  ⟨cs.takeWhile isBlank, fun _ hc => isBlank_iff.1 (List.mem_takeWhile_imp hc), by simp⟩

/-- Spaces are dropped up to a character that is none. -/
lemma dropWhile_spaces {s r : List Char} (hs : Spaces s) (hr : ∀ c ∈ r.head?, isSpace c = false) :
    (s ++ r).dropWhile isSpace = r :=
  (takeWhile_dropWhile_of_split (fun c hc => isSpace_iff.2 (hs c hc)) hr).2

/-- Blanks are dropped up to a character that is none. -/
lemma dropWhile_blanks {s r : List Char} (hs : Blanks s) (hr : ∀ c ∈ r.head?, isBlank c = false) :
    (s ++ r).dropWhile isBlank = r :=
  (takeWhile_dropWhile_of_split (fun c hc => isBlank_iff.2 (hs c hc)) hr).2

/-- A line feed that is taken in is a blank. -/
lemma dropWhile_behind (a r : List Char) :
    (behind a r).dropWhile isBlank = r.dropWhile isBlank := by
  rw [behind]
  split
  · rename_i h
    obtain ⟨r, rfl⟩ := List.head?_eq_some_iff.1 h.2
    rfl
  · rfl

/-- Blanks and a mark behind them. -/
def Boundary (mark : Char) (r : List Char) : Prop := ∃ s q, Blanks s ∧ r = s ++ mark :: q

/-- Behind the blanks in front of a mark is the mark. -/
lemma Boundary.dropWhile {mark : Char} {r : List Char} (h : Boundary mark r)
    (hmark : isBlank mark = false) : ∃ q, r.dropWhile isBlank = mark :: q := by
  obtain ⟨s, q, hs, rfl⟩ := h
  exact ⟨q, dropWhile_blanks hs (by simpa using hmark)⟩

/-! ## What is read are rows -/

/-- The reader reads nothing but elements, off fewer characters than so many. What it reads counts
only if characters are left behind it. -/
def ReadsOnly (size : Nat) (element : Reader) (Element : List Char → Node → Prop) : Prop :=
  ∀ cs v rest, cs.length < size → element cs = some (v, rest) → rest ≠ [] →
    ∃ a, cs = a ++ rest ∧ Element a v

section

variable {size : Nat} {element : Reader} {Element : List Char → Node → Prop}

/-- What is read behind a comma is an element, with blanks around the comma. -/
lemma commaThen_eq_some {cs rest : List Char} {v : Node}
    (h : commaThen element cs = some (v, rest)) :
    ∃ s s' more, Blanks s ∧ Blanks s' ∧ cs = s ++ ',' :: (s' ++ more) ∧
      element more = some (v, rest) := by
  simp only [commaThen, bind, Option.bind_eq_some_iff, dropChar?_eq_some, beq_iff_eq] at h
  obtain ⟨left, ⟨_, rfl, hcomma⟩, helement⟩ := h
  obtain ⟨s, hs, hcs⟩ := exists_blanks cs
  obtain ⟨s', hs', hleft⟩ := exists_blanks left
  refine ⟨s, s', left.dropWhile isBlank, hs, hs', ?_, helement⟩
  rw [← hleft, ← hcomma, ← hcs]

/-- Elements that are read form a row, if something is left behind them.

**Proof sketch.** Induction on the characters ahead. What is read behind the first element and a
comma is what would be read from there on. -/
lemma exists_row (ha : Advances element) (h : ReadsOnly size element Element) {cs : List Char}
    (hlt : cs.length < size) {v : Node} {rest : List Char} (hread : element cs = some (v, rest))
    (hend : (elementsWith element cs).2 ≠ []) :
    ∃ row, cs = row ++ (elementsWith element cs).2 ∧
      Row Element row (elementsWith element cs).1 := by
  have hadvance := advances_commaThen ha
  have hne : rest ≠ [] := by
    rintro rfl
    simp only [elementsWith, hread] at hend
    exact hend (List.suffix_nil.1 (many_suffix hadvance []))
  obtain ⟨a, rfl, helement⟩ := h cs v rest hlt hread hne
  have hshorter := ha.length_lt hread
  cases hcomma : commaThen element rest with
  | none =>
    simp only [elementsWith, hread, many_of_none hcomma]
    exact ⟨a, rfl, .single helement⟩
  | some result =>
    obtain ⟨w, left⟩ := result
    obtain ⟨s, s', more, hs, hs', rfl, hmore⟩ := commaThen_eq_some hcomma
    have hmany : elementsWith element (a ++ (s ++ ',' :: (s' ++ more))) =
        (v :: (elementsWith element more).1, (elementsWith element more).2) := by
      simp only [elementsWith, hread, hmore, many_of_some hadvance hcomma]
    have hsize : more.length < (a ++ (s ++ ',' :: (s' ++ more))).length := by
      simp only [List.length_append, List.length_cons]
      omega
    rw [hmany] at hend ⊢
    obtain ⟨row, hrow, helements⟩ := exists_row ha h (hsize.trans hlt) hmore hend
    refine ⟨a ++ (s ++ ',' :: (s' ++ row)), ?_, .comma helement hs hs' helements⟩
    simp only [List.append_assoc, List.cons_append]
    rw [← hrow]
termination_by cs.length

/-- What is read between two marks is a row of elements, or there are none. -/
theorem exists_delimited (ha : Advances element) {opening closing : Char} {cs : List Char}
    (h : ReadsOnly cs.length element Element) {vs : List Node} {rest : List Char}
    (hread : delimitedWith opening closing element cs = some (vs, rest)) :
    ∃ o, cs = o ++ rest ∧ Delimited Element opening closing o vs := by
  simp only [delimitedWith, bind, Option.bind_eq_some_iff, dropChar?_eq_some, beq_iff_eq,
    Option.some.injEq, Prod.mk.injEq] at hread
  obtain ⟨inside, ⟨opening, rfl, rfl⟩, left, ⟨closing, rfl, hclose⟩, rfl, rfl⟩ := hread
  obtain ⟨s, hs, hinside⟩ := exists_blanks inside
  have hend : (elementsWith element (inside.dropWhile isBlank)).2 ≠ [] := by
    intro hnil
    rw [hnil] at hclose
    cases hclose
  cases hfirst : element (inside.dropWhile isBlank) with
  | none =>
    simp only [elementsWith, hfirst] at hclose ⊢
    rw [List.dropWhile_idempotent] at hclose
    refine ⟨opening :: (s ++ [closing]), ?_, .empty hs⟩
    conv_lhs => rw [hinside, hclose]
    simp
  | some result =>
    obtain ⟨v, more⟩ := result
    have hlt := length_dropWhile_le isBlank inside
    obtain ⟨row, hrow, helements⟩ := exists_row ha h (Nat.lt_succ_of_le hlt) hfirst hend
    obtain ⟨s', hs', hleft⟩ := exists_blanks (elementsWith element (inside.dropWhile isBlank)).2
    refine ⟨opening :: (s ++ (row ++ (s' ++ [closing]))), ?_, .row hs hs' helements⟩
    conv_lhs => rw [hinside, hrow, hleft, hclose]
    simp

end

/-! ## Rows are read -/

/-- The reader reads all elements of fewer characters than so many in front of blanks and a mark,
and nothing else that starts with the closing mark. -/
structure ReadsAll (size : Nat) (element : Reader) (Element : List Char → Node → Prop)
    (closing : Char) : Prop where
  first : ∀ a v, Element a v → ∃ c ∈ a.head?, isBlank c = false
  before : ∀ a v r, a.length < size → Element a v → Boundary ',' r ∨ Boundary closing r →
    element (a ++ r) = some (v, behind a r)
  close : ∀ r, element (closing :: r) = none

section

variable {size : Nat} {element : Reader} {Element : List Char → Node → Prop} {closing : Char}

/-- A line feed that is taken in in front of a comma makes no difference. -/
lemma commaThen_behind (a r : List Char) :
    commaThen element (behind a r) = commaThen element r := by
  simp only [commaThen, dropWhile_behind]

/-- No comma is read in front of the mark that closes a row. -/
lemma commaThen_of_boundary {r : List Char} (hclosing : isBlank closing = false)
    (hcomma : closing ≠ ',') (hr : Boundary closing r) : commaThen element r = none := by
  obtain ⟨q, hq⟩ := hr.dropWhile hclosing
  have hdrop : dropChar? (· == ',') (closing :: q) = none := if_neg (by simpa using hcomma)
  simp only [commaThen, hq, hdrop]
  rfl

/-- An element is read behind a comma, with blanks around it. -/
lemma commaThen_append {s s' cs : List Char} (hs : Blanks s) (hs' : Blanks s')
    (hcs : ∀ c ∈ cs.head?, isBlank c = false) :
    commaThen element (s ++ ',' :: (s' ++ cs)) = element cs := by
  have hblanks : (s ++ ',' :: (s' ++ cs)).dropWhile isBlank = ',' :: (s' ++ cs) :=
    dropWhile_blanks hs (by simp [isBlank, isSpace, endsLine])
  have hdrop : dropChar? (· == ',') (',' :: (s' ++ cs)) = some (s' ++ cs) := rfl
  simp only [commaThen, hblanks, hdrop, bind, Option.bind_some, dropWhile_blanks hs' hcs]

/-- Rows start with an element. -/
lemma Row.head {row : List Char} {vs : List Node} (hrow : Row Element row vs)
    (h : ∀ a v, Element a v → ∃ c ∈ a.head?, isBlank c = false) (r : List Char) :
    row ≠ [] ∧ vs ≠ [] ∧ ∀ c ∈ (row ++ r).head?, isBlank c = false := by
  have hstart : ∀ {a v}, Element a v → ∀ r : List Char,
      a ++ r ≠ [] ∧ ∀ c ∈ (a ++ r).head?, isBlank c = false := by
    intro a v helement r
    obtain ⟨c, hc, hblank⟩ := h a v helement
    obtain ⟨a, rfl⟩ := List.head?_eq_some_iff.1 hc
    exact ⟨by simp, by simpa using hblank⟩
  cases hrow with
  | single helement =>
    have hnil := (hstart helement []).1
    rw [List.append_nil] at hnil
    exact ⟨hnil, by simp, (hstart helement r).2⟩
  | comma helement _ _ _ =>
    refine ⟨(hstart helement _).1, by simp, ?_⟩
    rw [List.append_assoc]
    exact (hstart helement _).2

/-- A row of elements is read in front of blanks and the closing mark. -/
lemma elementsWith_append (ha : Advances element) (h : ReadsAll size element Element closing)
    (hclosing : isBlank closing = false) (hcomma : closing ≠ ',') {row : List Char}
    {vs : List Node} (hrow : Row Element row vs) (hlt : row.length < size) {r : List Char}
    (hr : Boundary closing r) : elementsWith element (row ++ r) = (vs, behind row r) := by
  have hadvance := advances_commaThen ha
  induction hrow with
  | @single a v helement =>
    have hread := h.before a v r hlt helement (.inr hr)
    have hnone : commaThen element (behind a r) = none := by
      rw [commaThen_behind, commaThen_of_boundary hclosing hcomma hr]
    simp only [elementsWith, hread, many_of_none hnone]
  | @comma a s s' cs v vs helement hs hs' hrow ih =>
    obtain ⟨hcs, hvs, hhead⟩ := hrow.head h.first r
    simp only [List.length_append, List.length_cons] at hlt
    have hread := h.before a v (s ++ ',' :: (s' ++ (cs ++ r))) (by omega) helement
      (.inl ⟨s, _, hs, rfl⟩)
    have hothers := ih (by omega)
    have hassoc : a ++ (s ++ ',' :: (s' ++ cs)) ++ r = a ++ (s ++ ',' :: (s' ++ (cs ++ r))) := by
      simp
    have hlast : behind (a ++ (s ++ ',' :: (s' ++ cs))) r = behind cs r := by
      have hsplit : a ++ (s ++ ',' :: (s' ++ cs)) = (a ++ s ++ ',' :: s') ++ cs := by simp
      rw [hsplit, behind_append_left hcs]
    rw [hassoc, hlast]
    cases hfirst : element (cs ++ r) with
    | none =>
      simp only [elementsWith, hfirst, Prod.mk.injEq] at hothers
      exact absurd hothers.1.symm hvs
    | some result =>
      obtain ⟨w, left⟩ := result
      have hcommaThen : commaThen element (behind a (s ++ ',' :: (s' ++ (cs ++ r)))) =
          some (w, left) := by
        rw [commaThen_behind, commaThen_append hs hs' hhead, hfirst]
      simp only [elementsWith, hfirst, Prod.mk.injEq] at hothers
      simp only [elementsWith, hread, many_of_some hadvance hcommaThen, hothers]

/-- A row of elements between marks is read, whatever stands behind it. -/
theorem delimitedWith_append (ha : Advances element) {opening : Char} {o : List Char}
    {vs : List Node} (h : ReadsAll o.length element Element closing)
    (hclosing : isBlank closing = false) (hcomma : closing ≠ ',')
    (ho : Delimited Element opening closing o vs) (r : List Char) :
    delimitedWith opening closing element (o ++ r) = some (vs, r) := by
  have hopen : ∀ cs, dropChar? (· == opening) (opening :: cs) = some cs :=
    fun cs => dropChar?_cons (by simp)
  have hclose : dropChar? (· == closing) (closing :: r) = some r := dropChar?_cons (by simp)
  cases ho with
  | @empty s hs =>
    have hassoc : opening :: (s ++ [closing]) ++ r = opening :: (s ++ closing :: r) := by simp
    have hblanks : (s ++ closing :: r).dropWhile isBlank = closing :: r :=
      dropWhile_blanks hs (by simpa using hclosing)
    have hmark : (closing :: r).dropWhile isBlank = closing :: r := by simp [hclosing]
    rw [hassoc]
    simp only [delimitedWith, hopen, bind, Option.bind_some, hblanks, elementsWith, h.close, hmark,
      hclose]
  | @row s s' cs vs hs hs' hrow =>
    have hassoc : opening :: (s ++ (cs ++ (s' ++ [closing]))) ++ r =
        opening :: (s ++ (cs ++ (s' ++ closing :: r))) := by simp
    obtain ⟨-, -, hhead⟩ := hrow.head h.first (s' ++ closing :: r)
    have helements : elementsWith element (cs ++ (s' ++ closing :: r)) =
        (vs, behind cs (s' ++ closing :: r)) := by
      refine elementsWith_append ha h hclosing hcomma hrow ?_ ⟨s', r, hs', rfl⟩
      simp only [List.length_cons, List.length_append]
      omega
    have hend : (behind cs (s' ++ closing :: r)).dropWhile isBlank = closing :: r := by
      rw [dropWhile_behind, dropWhile_blanks hs' (by simpa using hclosing)]
    rw [hassoc]
    simp only [delimitedWith, hopen, bind, Option.bind_some, dropWhile_blanks hs hhead, helements,
      hend, hclose]

end

end Packrat.Program
