import Mathlib.Algebra.BigOperators.Group.List.Basic
import Mathlib.Algebra.Ring.Nat
import Mathlib.Data.List.TakeWhile
import Mathlib.Tactic.Lemma
set_option autoImplicit false
set_option relaxedAutoImplicit false

/-!
# Splitting a text

Reading a text often means to take the characters that pass a test, up to the first one that does
not. This splits every text, and in one way only. A text can also be split at each place where some
character stands, into one piece more than there are such places; the pieces and the characters
between them make up the text.

## Main results

* `Packrat.exists_split` — every text can be split where a test fails first.
* `Packrat.split_unique` — there is one way only.
* `Packrat.length_splitOn`, `Packrat.sum_length_splitOn` — the number of pieces at a character, and
  their lengths.
-/

namespace Packrat

/-! ## Splitting where a test fails -/

variable {test : Char → Bool}

/-- What is dropped and what is left, where it is known up to where a test holds. -/
lemma takeWhile_dropWhile_of_split {a r : List Char} (ha : ∀ c ∈ a, test c = true)
    (hr : ∀ c ∈ r.head?, test c = false) :
    (a ++ r).takeWhile test = a ∧ (a ++ r).dropWhile test = r := by
  rw [List.takeWhile_append_of_pos ha, List.dropWhile_append_of_pos ha]
  cases r with
  | nil => simp
  | cons c r => simp [hr c rfl]

/-- There is only one way to split characters where a test fails first. -/
lemma split_unique {a b r s : List Char} (ha : ∀ c ∈ a, test c = true)
    (hb : ∀ c ∈ b, test c = true) (hr : ∀ c ∈ r.head?, test c = false)
    (hs : ∀ c ∈ s.head?, test c = false) (h : a ++ r = b ++ s) : a = b ∧ r = s := by
  obtain ⟨htake, hdrop⟩ := takeWhile_dropWhile_of_split ha hr
  obtain ⟨htake', hdrop'⟩ := takeWhile_dropWhile_of_split hb hs
  rw [h] at htake hdrop
  exact ⟨htake.symm.trans htake', hdrop.symm.trans hdrop'⟩

/-- A character that does not occur differs from all that do. -/
lemma bne_of_not_mem {d : Char} {cs : List Char} (h : d ∉ cs) : ∀ c ∈ cs, (c != d) = true :=
  fun _ hc =>
  bne_iff_ne.2 (ne_of_mem_of_not_mem hc h)

/-- A text can be cut in front of the first character that fails a test. -/
lemma exists_split (test : Char → Bool) (cs : List Char) :
    ∃ a r, cs = a ++ r ∧ (∀ c ∈ a, test c = true) ∧ (∀ c ∈ r.head?, test c = false) := by
  refine ⟨cs.takeWhile test, cs.dropWhile test, by simp, fun c hc => ?_, fun c hc => ?_⟩
  · exact List.mem_takeWhile_imp hc
  · have hnot := List.head?_dropWhile_not test cs
    rw [Option.mem_def] at hc
    rw [hc] at hnot
    exact by simpa using hnot

/-! ## Splitting at a character -/

/-- A text is split into one part more than the character occurs. -/
lemma length_splitOn (c : Char) (cs : List Char) : (cs.splitOn c).length = cs.count c + 1 := by
  induction cs with
  | nil => rfl
  | cons d cs ih =>
    rw [List.splitOn_cons_eq_if_modifyHead, List.count_cons]
    split
    · rw [List.length_cons, ih]
    · rw [List.length_modifyHead, ih]

/-- The pieces in front of one of the places. -/
lemma take_splitOn_append (c : Char) (as bs : List Char) :
    ((as ++ c :: bs).splitOn c).take (as.count c + 1) = as.splitOn c := by
  rw [List.splitOn_append_cons_self, ← length_splitOn, List.take_left]

/-- The pieces and the characters between them make up the text. -/
lemma sum_length_splitOn (c : Char) (cs : List Char) :
    ((cs.splitOn c).map List.length).sum + cs.count c = cs.length := by
  induction cs with
  | nil => rfl
  | cons d cs ih =>
    rw [List.splitOn_cons_eq_if_modifyHead, List.count_cons]
    split
    · simp only [List.map_cons, List.sum_cons, List.length_nil, List.length_cons]
      omega
    · cases hsplit : cs.splitOn c with
      | nil => simp at hsplit
      | cons piece pieces =>
        rw [hsplit] at ih
        simp only [List.modifyHead_cons, List.map_cons, List.sum_cons, List.length_cons] at ih ⊢
        omega

/-- Lines that are put together with a character between them are split where they are put together,
and at each such character in one of them. -/
lemma splitOn_intercalate_eq_flatMap (c : Char) {lines : List (List Char)} (h : lines ≠ []) :
    ([c].intercalate lines).splitOn c = lines.flatMap (List.splitOn c) := by
  induction lines with
  | nil => exact absurd rfl h
  | cons line lines ih =>
    cases lines with
    | nil => simp
    | cons next lines =>
      rw [List.intercalate_cons_cons, List.append_assoc, List.singleton_append,
        List.splitOn_append_cons_self, ih (by simp)]
      exact List.flatMap_cons.symm

end Packrat
