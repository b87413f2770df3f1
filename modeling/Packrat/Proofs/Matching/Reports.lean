import Mathlib.Tactic.Lemma
import Packrat.Matching.Run
set_option autoImplicit false
set_option relaxedAutoImplicit false

/-!
# Reports of failures

While it matches, a rule reports what was missing where, and the state keeps only the furthest
position and the descriptions reported there. What is kept depends neither on the order of the
reports nor on how often each of them is made. A report that changes nothing is *absorbed*, and
stays absorbed whatever is reported later; this is why matching may skip reports that were made
before.

## Main definitions

* `Packrat.Report` — a position and what was missing there.
* `Packrat.Frontier.noteAll` — takes a list of reports into account.
* `Packrat.Frontier.Absorbs` — reports that would change nothing.

## Main results

* `Packrat.Frontier.note_comm`, `Packrat.Frontier.note_note` — order and repetition of reports.
* `Packrat.Frontier.absorbs_noteAll` — reports are absorbed once they have been made.
* `Packrat.Frontier.Absorbs.noteAll` — they stay absorbed.
-/

namespace Packrat

/-- A position and what was missing there. -/
abbrev Report := Nat × String

/-! ## Strings in a sorted list -/

/-- Two descriptions are the same, or one of them comes first. -/
lemma string_trichotomy (s t : String) : s < t ∨ s = t ∨ t < s := by
  by_cases hst : s < t
  · exact .inl hst
  · by_cases hts : t < s
    · exact .inr (.inr hts)
    · exact .inr (.inl (String.le_antisymm (String.not_lt.1 hts) (String.not_lt.1 hst)))

/-- Two strings are added to a list in either order with the same result. -/
lemma insertSorted_comm (s t : String) :
    ∀ us, insertSorted s (insertSorted t us) = insertSorted t (insertSorted s us)
  | [] => by
    have htri := string_trichotomy s t
    have hasymm := @String.lt_asymm s t
    simp only [insertSorted]
    grind
  | u :: us => by
    have ih := insertSorted_comm s t us
    have htri := string_trichotomy s t
    have hasymm := @String.lt_asymm
    have htrans := @String.lt_trans
    simp only [insertSorted]
    grind [insertSorted, String.lt_irrefl]

/-- A string is added to a list only once. -/
lemma insertSorted_insertSorted (s : String) :
    ∀ us, insertSorted s (insertSorted s us) = insertSorted s us
  | [] => by simp [insertSorted]
  | u :: us => by
    have ih := insertSorted_insertSorted s us
    simp only [insertSorted]
    grind [insertSorted, String.lt_irrefl]

namespace Frontier

/-! ## Order and repetition -/

/-- The order of two reports does not matter. -/
theorem note_comm (f : Frontier) (p q : Nat) (s t : String) :
    (f.note p s).note q t = (f.note q t).note p s := by
  have hcomm := insertSorted_comm s t
  have hpair : insertSorted s [t] = insertSorted t [s] := by simpa [insertSorted] using hcomm []
  simp only [note]
  grind

/-- A report that is made twice counts once. -/
theorem note_note (f : Frontier) (p : Nat) (s : String) : (f.note p s).note p s = f.note p s := by
  have htwice := insertSorted_insertSorted s
  have hone : insertSorted s [s] = [s] := by simp [insertSorted]
  simp only [note]
  grind

/-- Takes a list of reports into account. -/
def noteAll (f : Frontier) (reports : List Report) : Frontier :=
  reports.foldl (fun f report => f.note report.1 report.2) f

/-- No reports leave the furthest failure as it is. -/
@[simp] lemma noteAll_nil (f : Frontier) : f.noteAll [] = f := rfl

/-- Reports in two rows are noted one row behind the other. -/
lemma noteAll_append (f : Frontier) (reports more : List Report) :
    f.noteAll (reports ++ more) = (f.noteAll reports).noteAll more := by
  simp [noteAll, List.foldl_append]

/-! ## Absorbed reports -/

/-- Reports that would change nothing. -/
def Absorbs (f : Frontier) (reports : List Report) : Prop :=
  ∀ report ∈ reports, f.note report.1 report.2 = f

/-- An absorbed report stays absorbed when another one is made. -/
lemma Absorbs.note {f : Frontier} {reports : List Report} (h : f.Absorbs reports) (p : Nat)
    (s : String) : (f.note p s).Absorbs reports := by
  intro report hr
  rw [note_comm, h report hr]

/-- Absorbed reports stay absorbed whatever is reported. -/
theorem Absorbs.noteAll {f : Frontier} {reports : List Report} (h : f.Absorbs reports)
    (more : List Report) : (f.noteAll more).Absorbs reports := by
  induction more generalizing f with
  | nil => exact h
  | cons report more ih => exact ih (h.note report.1 report.2)

/-- Making absorbed reports changes nothing. -/
lemma Absorbs.noteAll_eq {f : Frontier} {reports : List Report} (h : f.Absorbs reports) :
    f.noteAll reports = f := by
  induction reports with
  | nil => rfl
  | cons report reports ih =>
    have hf : f.note report.1 report.2 = f := h report (List.mem_cons_self ..)
    change (f.note report.1 report.2).noteAll reports = f
    rw [hf]
    exact ih fun r hr => h r (List.mem_cons_of_mem _ hr)

/-- Reports are absorbed once they have been made. -/
theorem absorbs_noteAll (f : Frontier) (reports : List Report) :
    (f.noteAll reports).Absorbs reports := by
  induction reports generalizing f with
  | nil => exact fun _ h => absurd h List.not_mem_nil
  | cons report reports ih =>
    intro r hr
    rcases List.mem_cons.1 hr with rfl | hr
    · have honce : (f.note r.1 r.2).Absorbs [r] := by
        intro s hs
        obtain rfl := List.mem_singleton.1 hs
        exact note_note f s.1 s.2
      exact honce.noteAll reports r (List.mem_singleton_self r)
    · exact ih _ r hr

end Frontier

end Packrat
