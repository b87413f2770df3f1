import Mathlib.Data.List.Induction
import Mathlib.Data.List.Nodup
import Packrat.Proofs.Matching.Reports
set_option autoImplicit false
set_option relaxedAutoImplicit false

/-!
# What is kept of reports

A state keeps the furthest position at which something was missing and all that was missing there.
This determines what it keeps: it is a maximum, and a set that is listed in order. So neither the
order in which failures are reported nor how often each of them is makes a difference.

## Main definitions

* `Packrat.Frontier.Collects` — what is kept of some reports.
* `Packrat.Run.failAll` — reports some failures one after the other.

## Main results

* `Packrat.Frontier.Collects.note` — one more report.
* `Packrat.Frontier.Collects.unique` — the same reports, whatever their order, leave the same
  behind.
* `Packrat.Run.failures_unordered` — what a fresh state keeps of the failures that are reported.
-/

namespace Packrat

/-- Increasing lists are determined by their members. -/
lemma eq_of_increasing {names others : List String} (h : names.Pairwise (· < ·))
    (hothers : others.Pairwise (· < ·))
    (hsame : ∀ name, name ∈ names ↔ name ∈ others) : names = others := by
  have hne : ∀ {s t : String}, s < t → s ≠ t := fun hlt heq => String.lt_irrefl _ (heq ▸ hlt)
  have hperm : names.Perm others :=
    (List.perm_ext_iff_of_nodup (h.imp hne) (hothers.imp hne)).2 hsame
  exact hperm.eq_of_pairwise (fun _ _ _ _ hlt hgt => absurd hgt (String.lt_asymm hlt)) h hothers

namespace Frontier

/-- A failure further on makes the others forgotten. -/
lemma note_of_further {f : Frontier} {position : Nat} (h : f.position < position)
    (description : String) :
    f.note position description = ⟨position, [description]⟩ := if_pos h

/-- A failure at the furthest position is added to what is expected there. -/
lemma note_same (f : Frontier) (description : String) :
    f.note f.position description = ⟨f.position, insertSorted description f.expected⟩ := by
  simp [note]

/-- A failure further back is ignored. -/
lemma note_of_nearer {f : Frontier} {position : Nat} (h : position < f.position)
    (description : String) :
    f.note position description = f := by
  rw [note, if_neg (by omega), if_neg (by omega)]

/-- What is kept of some reports: the furthest position, zero if there are none, and what was
missing there. -/
structure Collects (f : Frontier) (reports : List Report) : Prop where
  le_position : ∀ report ∈ reports, report.1 ≤ f.position
  reached : f.position = 0 ∨ ∃ description, (f.position, description) ∈ reports
  increasing : f.expected.Pairwise (· < ·)
  mem_expected : ∀ description, description ∈ f.expected ↔ (f.position, description) ∈ reports

/-- Before anything is reported, nothing is expected, at the beginning. -/
lemma collects_nil : Collects {} [] where
  le_position := nofun
  reached := .inl rfl
  increasing := List.Pairwise.nil
  mem_expected _ := by simp

namespace Collects

variable {f : Frontier} {reports : List Report}

/-- One more report: it is further than all before, as far as the furthest of them, or it does not
count. -/
lemma note (h : f.Collects reports) (position : Nat) (description : String) :
    (f.note position description).Collects (reports ++ [(position, description)]) := by
  rcases Nat.lt_trichotomy f.position position with hfurther | rfl | hnearer
  · have hnone : ∀ other, (position, other) ∉ reports := fun other hmem =>
      Nat.not_le_of_lt hfurther (h.le_position _ hmem)
    rw [note_of_further hfurther]
    exact {
      le_position := List.forall_mem_append.2
        ⟨fun report hreport =>
          Nat.le_of_lt (Nat.lt_of_le_of_lt (h.le_position report hreport) hfurther),
          List.forall_mem_singleton.2 (Nat.le_refl position)⟩
      reached := .inr ⟨description, by simp⟩
      increasing := List.pairwise_singleton _ _
      mem_expected := by simp [hnone] }
  · rw [note_same]
    exact {
      le_position :=
        List.forall_mem_append.2 ⟨h.le_position, List.forall_mem_singleton.2 (Nat.le_refl _)⟩
      reached := .inr ⟨description, by simp⟩
      increasing := pairwise_insertSorted h.increasing
      mem_expected := fun other => by simp [mem_insertSorted, h.mem_expected, or_comm] }
  · rw [note_of_nearer hnearer]
    exact {
      le_position :=
        List.forall_mem_append.2 ⟨h.le_position, List.forall_mem_singleton.2 (Nat.le_of_lt hnearer)⟩
      reached := h.reached.imp id fun ⟨other, hother⟩ => ⟨other, List.mem_append_left _ hother⟩
      increasing := h.increasing
      mem_expected := fun other => by simp [h.mem_expected, Nat.ne_of_gt hnearer] }

/-- What is kept of some reports is the same for all lists with the same members. -/
lemma unique {g : Frontier} {others : List Report} (h : f.Collects reports) (hg : g.Collects others)
    (hsame : ∀ report, report ∈ others ↔ report ∈ reports) : f = g := by
  have hposition : f.position = g.position := by
    refine Nat.le_antisymm ?_ ?_
    · rcases h.reached with hzero | ⟨description, hmem⟩
      · omega
      · exact hg.le_position _ ((hsame _).2 hmem)
    · rcases hg.reached with hzero | ⟨description, hmem⟩
      · omega
      · exact h.le_position _ ((hsame _).1 hmem)
  have hexpected : f.expected = g.expected := by
    refine eq_of_increasing h.increasing hg.increasing fun description => ?_
    rw [h.mem_expected, hg.mem_expected, hsame, hposition]
  cases f
  cases g
  exact congrArg₂ Frontier.mk hposition hexpected

/-- The furthest position is the largest one that is reported. -/
lemma position_eq (h : f.Collects reports) : f.position = (reports.map Prod.fst).max?.getD 0 := by
  cases hmax : (reports.map Prod.fst).max? with
  | none =>
    have hnil : reports = [] := by simpa using hmax
    rcases h.reached with hzero | ⟨description, hmem⟩
    · exact hzero
    · simp [hnil] at hmem
  | some most =>
    obtain ⟨hmem, hmost⟩ := List.max?_eq_some_iff.1 hmax
    obtain ⟨report, hreport, rfl⟩ := List.mem_map.1 hmem
    refine Nat.le_antisymm ?_ (h.le_position report hreport)
    rcases h.reached with hzero | ⟨description, hreached⟩
    · omega
    · exact hmost _ (List.mem_map_of_mem hreached)

end Collects

/-- From the beginning on, reports are collected.

**Proof sketch.** Induction on the reports, the last one first. -/
lemma collects_noteAll (reports : List Report) : (noteAll {} reports).Collects reports := by
  induction reports using List.reverseRecOn with
  | nil => exact collects_nil
  | append_singleton reports report ih =>
    rw [noteAll_append]
    exact ih.note report.1 report.2

end Frontier

namespace Run

variable {ν α : Type} [DecidableEq ν]

/-- Reports some failures one after the other. -/
def failAll (run : Run ν α) (reports : List Report) : Run ν α :=
  reports.foldl (fun run report => run.fail report.1 report.2) run

/-- Unless failures are kept quiet, the furthest of them are kept, and nothing else changes. -/
lemma failAll_of_quiet (run : Run ν α) (h : run.quiet = 0) (reports : List Report) :
    run.failAll reports = { run with frontier := run.frontier.noteAll reports } := by
  induction reports generalizing run with
  | nil => rfl
  | cons report reports ih =>
    have hfail : run.fail report.1 report.2 =
        { run with frontier := run.frontier.note report.1 report.2 } := if_pos h
    calc
      run.failAll (report :: reports) = (run.fail report.1 report.2).failAll reports := rfl
      _ = { run with frontier := (run.frontier.note report.1 report.2).noteAll reports } := by
        rw [hfail]
        exact ih { run with frontier := run.frontier.note report.1 report.2 } h

/-- Neither the order nor the repetition of failures makes a difference. If failures are reported to
a fresh state, and the same ones are reported to another fresh state in another order, each of them
any number of times, then

* both end in the same state, in which only what was missing has changed;
* the furthest position is the largest one that was reported, or zero if none was;
* what was missing there is all that was reported there and nothing else, each description once, in
  order. -/
theorem failures_unordered (memoize tracing : Bool) (reports again : List Report)
    (h : ∀ report, report ∈ again ↔ report ∈ reports) :
    let before : Run ν α := .fresh memoize tracing
    let after := before.failAll reports
    before.failAll again = after ∧ after = { before with frontier := after.frontier } ∧
    after.frontier.position = (reports.map Prod.fst).max?.getD 0 ∧
    after.frontier.expected.Pairwise (· < ·) ∧
    ∀ description, description ∈ after.frontier.expected ↔
      (after.frontier.position, description) ∈ reports := by
  intro before after
  have hcollects := Frontier.collects_noteAll reports
  have hafter : after = { before with frontier := Frontier.noteAll {} reports } :=
    failAll_of_quiet before rfl reports
  have hagain : before.failAll again = { before with frontier := Frontier.noteAll {} again } :=
    failAll_of_quiet before rfl again
  have hsame := hcollects.unique (Frontier.collects_noteAll again) h
  refine ⟨by rw [hagain, hafter, hsame], by rw [hafter], ?_, ?_, ?_⟩ <;> rw [hafter]
  · exact hcollects.position_eq
  · exact hcollects.increasing
  · exact hcollects.mem_expected

/-- What is furthest may be reported first, and more than once. -/
theorem failures_unordered_repeated :
    (∀ report, report ∈ [(2, "b"), (0, "c"), (2, "a"), (2, "b")] ↔
      report ∈ [(0, "c"), (2, "a"), (2, "b")]) ∧
    ((.fresh true false : Run Bool Unit).failAll
      [(2, "b"), (0, "c"), (2, "a"), (2, "b")]).frontier =
      ⟨2, ["a", "b"]⟩ := by
  have hsame : ∀ report : Report, report ∈ [(2, "b"), (0, "c"), (2, "a"), (2, "b")] ↔
      report ∈ [(0, "c"), (2, "a"), (2, "b")] := by
    simp
  have hfurthest :
      ((.fresh true false : Run Bool Unit).failAll [(0, "c"), (2, "a"), (2, "b")]).frontier =
      ⟨2, ["a", "b"]⟩ := by decide
  obtain ⟨hagain, -⟩ := failures_unordered (ν := Bool) (α := Unit) true false _ _ hsame
  exact ⟨hsame, by rw [hagain, hfurthest]⟩

end Run

end Packrat
