import Mathlib.Algebra.BigOperators.Group.List.Basic
import Mathlib.Algebra.Ring.Nat
import Packrat.Proofs.Text.Split
import Packrat.Text.Location
set_option autoImplicit false
set_option relaxedAutoImplicit false

/-!
# Positions by line and column

From one position to the next the location moves in one of two ways: over a line feed to the
beginning of the next line, and over anything else, or behind the text, one column further. So the
line counts the line feeds in front of a position, the column counts from where the line starts, and
positions are ordered as their locations are. The lines of a text are its pieces between line feeds,
and where a line starts is the length of the pieces above it with their line feeds.

A location can also be found without a walk over the text, by halving the list of its line feeds.

## Main definitions

* `Packrat.Location.Before` — the order of locations, by line and then by column.
* `Packrat.Text.LineStartsAt` — where the line of a position starts.
* `Packrat.bisectLeft` — how many of some increasing numbers are below a bound, found by halving.
* `Packrat.Text.search` — the location of a position, found by halving.

## Main results

* `Packrat.Text.locate_succ` — the location of the next position.
* `Packrat.Text.exists_lineStart` — the location by where the line starts.
* `Packrat.Text.length_lines_above` — where a line starts, by the lines above it.
* `Packrat.Text.search_eq_locate` — halving finds the location.
* `Packrat.Text.locate_identifies` — line and column identify a position.
-/

namespace Packrat

/-! ## One position after the other -/

/-- The order of locations: a line above comes first, and on a line what is further left. -/
def Location.Before (a b : Location) : Prop :=
  a.line < b.line ∨ a.line = b.line ∧ a.column < b.column

/-- The order of locations is transitive. -/
lemma Location.Before.trans {a b c : Location} (hab : a.Before b) (hbc : b.Before c) :
    a.Before c := by
  unfold Before at *
  omega

/-- Two texts are walked through one behind the other. -/
lemma Location.walk_append (start : Location) (as bs : List Char) :
    start.walk (as ++ bs) = (start.walk as).walk bs := by
  induction as generalizing start with
  | nil => rfl
  | cons c as ih =>
    simp only [List.cons_append, walk]
    split <;> exact ih _

namespace Text

/-- The characters of a text are those at its positions. -/
lemma getElem?_chars (t : Text) (position : Nat) :
    t.chars.toList[position]? = t.char? position := by
  simp [char?]

/-- The location of the next position: the beginning of the next line behind a line feed, and else
one column further, also behind the text. -/
theorem locate_succ (t : Text) (position : Nat) :
    t.locate (position + 1) =
      if t.char? position = some '\n' then ⟨(t.locate position).line + 1, 0⟩
      else ⟨(t.locate position).line, (t.locate position).column + 1⟩ := by
  simp only [locate, List.take_add_one, getElem?_chars, Location.walk_append]
  cases hc : t.char? position with
  | none =>
    have hle : t.size ≤ position := Array.getElem?_eq_none_iff.1 hc
    simp [Location.walk]
    omega
  | some c =>
    have hlt : position < t.size := (Array.getElem?_eq_some_iff.1 hc).1
    by_cases hbreak : c = '\n'
    · simp [Location.walk, hbreak]
      omega
    · simp [Location.walk, hbreak]
      omega

/-- A later position has a later location.

**Proof sketch.** Induction on how much later it is, one position at a time. -/
lemma before_of_lt (t : Text) {position later : Nat} (h : position < later) :
    (t.locate position).Before (t.locate later) := by
  have hnext : ∀ p, (t.locate p).Before (t.locate (p + 1)) := by
    intro p
    rw [locate_succ]
    unfold Location.Before
    split <;> simp
  induction later, h using Nat.le_induction with
  | base => exact hnext position
  | succ later _ ih => exact ih.trans (hnext later)

/-! ## Where a line starts -/

/-- The line of a position starts at the beginning of the text or behind a line feed, and from there
up to the position there is no line feed. -/
structure LineStartsAt (t : Text) (position start : Nat) : Prop where
  le : start ≤ position
  begins : start = 0 ∨ t.char? (start - 1) = some '\n'
  unbroken : ∀ between, start ≤ between → between < position → t.char? between ≠ some '\n'

/-- The line counts the line feeds in front of its start, and the column counts from there.

**Proof sketch.** Induction on the position. Behind a line feed a line starts; else the line goes
on. -/
theorem exists_lineStart (t : Text) (position : Nat) :
    ∃ start, t.LineStartsAt position start ∧
      t.locate position = ⟨1 + (t.chars.toList.take start).count '\n', position - start⟩ := by
  induction position with
  | zero => exact ⟨0, ⟨Nat.le_refl 0, .inl rfl, by omega⟩, by simp [locate, Location.walk]⟩
  | succ position ih =>
    obtain ⟨start, hstart, hlocate⟩ := ih
    by_cases hbreak : t.char? position = some '\n'
    · refine ⟨position + 1, ⟨Nat.le_refl _, .inr hbreak, by omega⟩, ?_⟩
      have hline := t.line_locate (position + 1)
      rw [locate_succ, if_pos hbreak] at hline ⊢
      simp [← hline]
    · refine ⟨start, ⟨by have := hstart.le; omega, hstart.begins, fun between hle hlt => ?_⟩, ?_⟩
      · rcases Nat.lt_succ_iff_lt_or_eq.1 hlt with hlt | rfl
        · exact hstart.unbroken between hle hlt
        · exact hbreak
      · have hle := hstart.le
        rw [locate_succ, if_neg hbreak, hlocate]
        simp only [Location.mk.injEq, true_and]
        omega

/-- There is one place only where the line of a position starts. -/
lemma LineStartsAt.unique {t : Text} {position start other : Nat}
    (h : t.LineStartsAt position start)
    (hother : t.LineStartsAt position other) : start = other := by
  -- The line feed in front of the later one would be on the line that starts at the earlier one.
  rcases Nat.lt_trichotomy start other with hlt | heq | hlt
  · have hbreak := hother.begins.resolve_left (by omega)
    exact absurd hbreak (h.unbroken (other - 1) (by omega) (by have := hother.le; omega))
  · exact heq
  · have hbreak := h.begins.resolve_left (by omega)
    exact absurd hbreak (hother.unbroken (start - 1) (by omega) (by have := h.le; omega))

/-- Where a line starts, by the lines above it: their lengths and their line feeds make up what is
in front. -/
theorem length_lines_above (t : Text) {position start : Nat} (h : t.LineStartsAt position start) :
    (((t.chars.toList.splitOn '\n').take ((t.chars.toList.take start).count '\n')).map
      List.length).sum + (t.chars.toList.take start).count '\n' = start := by
  rcases h.begins with rfl | hbreak
  · simp
  · rcases start with _ | before
    · simp
    · obtain ⟨above, below, hchars, hlength⟩ :
          ∃ above below, t.chars.toList = above ++ '\n' :: below ∧ above.length = before := by
        obtain ⟨hlt, hget⟩ := List.getElem?_eq_some_iff.1 ((t.getElem?_chars before).trans hbreak)
        refine ⟨t.chars.toList.take before, t.chars.toList.drop (before + 1), ?_,
          List.length_take_of_le (Nat.le_of_lt hlt)⟩
        rw [← hget, ← List.drop_eq_getElem_cons hlt, List.take_append_drop]
      have hbreaks : (t.chars.toList.take (before + 1)).count '\n' = above.count '\n' + 1 := by
        simp [hchars, ← hlength, List.take_length_add_append]
      have hsum := sum_length_splitOn '\n' above
      rw [hbreaks, hchars, take_splitOn_append]
      omega

end Text

/-! ## Halving -/

/-- How many of some increasing numbers are below a bound, if that is at least `low` and at most
`high`. What lies between the two is halved until nothing is left. -/
def bisectLeft (numbers : Array Nat) (bound low high : Nat) (hhigh : high ≤ numbers.size) : Nat :=
  if hlow : low < high then
    if numbers[(low + high) / 2] < bound then
      bisectLeft numbers bound ((low + high) / 2 + 1) high hhigh
    else bisectLeft numbers bound low ((low + high) / 2) (by omega)
  else low
termination_by high - low

/-- What is below the next bound is below the bound or equal to it. -/
lemma countP_lt_succ (numbers : List Nat) (bound : Nat) :
    numbers.countP (· < bound + 1) = numbers.countP (· < bound) + numbers.count bound := by
  induction numbers with
  | nil => rfl
  | cons number numbers ih =>
    simp only [List.countP_cons, List.count_cons, ih, decide_eq_true_eq, beq_iff_eq]
    split_ifs <;> omega

/-- Increasing numbers increase from one index to any later one. -/
lemma getElem_le_of_increasing {numbers : Array Nat} (h : numbers.toList.Pairwise (· < ·))
    {i j : Nat} (hij : i ≤ j) (hj : j < numbers.size) : numbers[i] ≤ numbers[j] := by
  rcases Nat.lt_or_eq_of_le hij with hlt | rfl
  · exact Nat.le_of_lt (List.pairwise_iff_getElem.1 h i j (by simp; omega) hj hlt)
  · exact Nat.le_refl _

/-- Halving ends where the numbers are no longer below the bound.

**Proof sketch.** Induction on the halving. All numbers in front of `low` are below the bound and
all from `high` on are not, and each half keeps this because the numbers increase. -/
lemma bisectLeft_spec {numbers : Array Nat} (hincreasing : numbers.toList.Pairwise (· < ·))
    (bound : Nat) {low high : Nat} (hle : low ≤ high) (hhigh : high ≤ numbers.size)
    (hbelow : ∀ i (h : i < numbers.size), i < low → numbers[i] < bound)
    (habove : ∀ i (h : i < numbers.size), high ≤ i → bound ≤ numbers[i]) :
    bisectLeft numbers bound low high hhigh ≤ numbers.size ∧
      ∀ i (h : i < numbers.size), numbers[i] < bound ↔
        i < bisectLeft numbers bound low high hhigh := by
  fun_induction bisectLeft numbers bound low high hhigh with
  | case1 low high hhigh hlow hmiddle ih =>
    refine ih (by omega) (fun i h hi => ?_) habove
    exact Nat.lt_of_le_of_lt (getElem_le_of_increasing hincreasing (by omega) (by omega)) hmiddle
  | case2 low high hhigh hlow hmiddle ih =>
    refine ih (by omega) hbelow (fun i h hi => ?_)
    exact Nat.le_trans (Nat.le_of_not_lt hmiddle) (getElem_le_of_increasing hincreasing hi h)
  | case3 low high hhigh hlow =>
    refine ⟨by omega, fun i h => ⟨fun hi => ?_, hbelow i h⟩⟩
    by_contra hge
    have := habove i h (by omega)
    omega

/-- So what it finds is the number of those that are. -/
lemma bisectLeft_eq_countP {numbers : Array Nat} (bound : Nat)
    (hincreasing : numbers.toList.Pairwise (· < ·)) :
    bisectLeft numbers bound 0 numbers.size (Nat.le_refl _) =
      numbers.toList.countP (· < bound) := by
  obtain ⟨hsize, hfound⟩ :=
    bisectLeft_spec hincreasing bound (Nat.zero_le _) (Nat.le_refl numbers.size)
    (by omega) (by omega)
  generalize bisectLeft numbers bound 0 numbers.size (Nat.le_refl _) = found at *
  have hbelow :
      (numbers.toList.take found).countP (· < bound) = (numbers.toList.take found).length := by
    refine List.countP_eq_length.2 fun number hnumber => ?_
    obtain ⟨i, hi, rfl⟩ := List.mem_iff_getElem.1 hnumber
    simp only [List.length_take, Array.length_toList] at hi
    simpa using (hfound i (by omega)).2 (by omega)
  have habove : (numbers.toList.drop found).countP (· < bound) = 0 := by
    refine List.countP_eq_zero.2 fun number hnumber => ?_
    obtain ⟨i, hi, rfl⟩ := List.mem_iff_getElem.1 hnumber
    simp only [List.length_drop, Array.length_toList] at hi
    have hnot := mt (hfound (found + i) (by omega)).1 (by omega)
    simpa using hnot
  rw [← List.take_append_drop found numbers.toList, List.countP_append, hbelow, habove,
    List.length_take_of_le hsize, Nat.add_zero]

namespace Text

/-- The positions of the line feeds, in order. -/
def lineFeeds (t : Text) : Array Nat :=
  ((List.range t.size).filter fun i => t.char? i = some '\n').toArray

/-- The location of a position, found by halving the list of line feeds: the line feeds in front of
it give the line, and the last one of them where the line starts. -/
def search (t : Text) (position : Nat) : Location :=
  match bisectLeft t.lineFeeds position 0 t.lineFeeds.size (Nat.le_refl _) with
  | 0 => ⟨1, position⟩
  | above + 1 => ⟨above + 2, position - (t.lineFeeds.getD above 0 + 1)⟩

/-- The line feeds are listed in order. -/
lemma pairwise_lineFeeds (t : Text) : t.lineFeeds.toList.Pairwise (· < ·) :=
  List.pairwise_lt_range.filter _

/-- A position is listed if a line feed stands there. -/
lemma mem_lineFeeds {t : Text} {position : Nat} :
    position ∈ t.lineFeeds ↔ t.char? position = some '\n' := by
  simp only [lineFeeds, List.mem_toArray, List.mem_filter, List.mem_range, decide_eq_true_eq,
    and_iff_right_iff_imp]
  intro h
  exact (Array.getElem?_eq_some_iff.1 h).1

/-- The line feeds in front of a position are those of the list that are below it.

**Proof sketch.** Induction on the position: it is in the list once if a line feed stands there, and
else not. -/
lemma count_take_eq_countP (t : Text) (position : Nat) :
    (t.chars.toList.take position).count '\n' = t.lineFeeds.toList.countP (· < position) := by
  have hnodup : t.lineFeeds.toList.Nodup := t.pairwise_lineFeeds.imp Nat.ne_of_lt
  induction position with
  | zero => simp
  | succ position ih =>
    have hhere : (t.char? position).toList.count '\n' = t.lineFeeds.toList.count position := by
      rw [hnodup.count]
      cases hc : t.char? position <;> simp [mem_lineFeeds, hc, List.count_singleton]
    rw [List.take_add_one, getElem?_chars, List.count_append, ih, hhere, countP_lt_succ]

/-- Halving finds the location.

**Proof sketch.** What halving finds is the number of line feeds in front of the position, so it
gives the line. The last one of them, if there is one, is where the line starts, and there is only
one such place. -/
theorem search_eq_locate (t : Text) (position : Nat) : t.search position = t.locate position := by
  obtain ⟨hsize, hfound⟩ := bisectLeft_spec t.pairwise_lineFeeds position (Nat.zero_le _)
    (Nat.le_refl t.lineFeeds.size) (by omega) (by omega)
  obtain ⟨start, hstart, hlocate⟩ := t.exists_lineStart position
  have hline := t.line_locate position
  rw [count_take_eq_countP, ← bisectLeft_eq_countP position t.pairwise_lineFeeds, hlocate] at hline
  rw [hlocate, search]
  cases hbisect : bisectLeft t.lineFeeds position 0 t.lineFeeds.size (Nat.le_refl _) with
  | zero =>
    have hfirst : t.LineStartsAt position 0 := by
      refine ⟨Nat.zero_le _, .inl rfl, fun between _ hlt hbreak => ?_⟩
      obtain ⟨i, hi, rfl⟩ := Array.mem_iff_getElem.1 (mem_lineFeeds.2 hbreak)
      have := (hfound i hi).1 hlt
      omega
    rw [hstart.unique hfirst]
    simp
  | succ above =>
    have habove : above < t.lineFeeds.size := by omega
    have hlast : t.LineStartsAt position (t.lineFeeds[above] + 1) := by
      refine ⟨(hfound above habove).2 (by omega),
        .inr (mem_lineFeeds.1 (Array.getElem_mem habove)), ?_⟩
      intro between hle hlt hbreak
      obtain ⟨i, hi, rfl⟩ := Array.mem_iff_getElem.1 (mem_lineFeeds.2 hbreak)
      have hi' := (hfound i hi).1 hlt
      have := getElem_le_of_increasing t.pairwise_lineFeeds (show i ≤ above by omega) habove
      omega
    obtain rfl := hstart.unique hlast
    rw [hbisect] at hline
    dsimp only at hline ⊢
    rw [hline, Array.getD_eq_getD_getElem?, Array.getElem?_eq_getElem habove, Option.getD_some,
      Nat.add_comm 1]

/-- Line and column identify a position, inside the text and behind it.

* The line is one more than the number of line feeds in front of the position.
* The column is the distance from where the line starts: behind the last line feed in front of the
  position, or at the beginning of the text.
* The position is made up of the lengths of the lines above, a line feed behind each, and the
  column.
* A position lies in front of another one just if its location does.
* The location is what halving the list of line feeds finds. -/
theorem locate_identifies (t : Text) (position : Nat) :
    (t.locate position).line = (t.chars.toList.take position).count '\n' + 1 ∧
    (∃ start, t.LineStartsAt position start ∧ (t.locate position).column = position - start) ∧
    (((t.chars.toList.splitOn '\n').take ((t.locate position).line - 1)).map List.length).sum +
        ((t.locate position).line - 1) + (t.locate position).column = position ∧
    (∀ other, position < other ↔ (t.locate position).Before (t.locate other)) ∧
    t.locate position = t.search position := by
  have hline := t.line_locate position
  obtain ⟨start, hstart, hlocate⟩ := t.exists_lineStart position
  refine ⟨by omega, ⟨start, hstart, by rw [hlocate]⟩, ?_,
    fun other => ⟨t.before_of_lt, fun hbefore => ?_⟩, (t.search_eq_locate position).symm⟩
  · have habove := t.length_lines_above hstart
    have hle := hstart.le
    rw [hlocate]
    dsimp only
    rw [Nat.add_sub_cancel_left]
    omega
  · rcases Nat.lt_trichotomy position other with hlt | rfl | hlt
    · exact hlt
    · unfold Location.Before at hbefore
      omega
    · have hback := hbefore.trans (t.before_of_lt hlt)
      unfold Location.Before at hback
      omega

example : ((Text.ofString "a\n\nb").locate 3, (Text.ofString "a\n\nb").locate 6) =
    (⟨3, 0⟩, ⟨3, 3⟩) := by decide

end Text

end Packrat
