import Packrat.Parsing.Parse
import Packrat.Program.Grammar
import Packrat.Proofs.Matching.Inner
import Packrat.Proofs.Matching.Stretch
set_option autoImplicit false
set_option relaxedAutoImplicit false

/-!
# What is reported of a text that is not accepted

A report points into the text or to its end: to the furthest place at which something was missing,
or to where the match of the start rule ends, if that is behind it. What would have been accepted
there is listed in order, and if there was a match, it is never nothing. The message speaks of the
end of the file just if that is where the report points.

## Main definitions

* `Packrat.Outcome.stop?` — where a match ends, if there is one.

## Main results

* `Packrat.Grammar.failure_in_text` — matches, missing pieces and reports are inside the text.
-/

namespace Packrat

variable {ν α : Type} [DecidableEq ν]

/-- Where a match ends, if there is one. -/
def Outcome.stop? : Outcome α (Match α) → Option Nat
  | .matched result => some result.stop
  | .unmatched | .stopped _ => none

/-! ## Messages -/

/-- A text is quoted in marks of one of the two kinds. -/
lemma mark_eq (cs : List Char) : Quoted.mark cs = '\x22' ∨ Quoted.mark cs = '\x27' := by
  unfold Quoted.mark
  split
  · exact .inl rfl
  · exact .inr rfl

/-- A message says that the file has ended just if no character was found. -/
lemma Failure.endOfFile_prefix_iff {f : Failure} {found : Option Char}
    (h : f.reason = .unexpected found) :
    "Syntax Error: Unexpected end of file".toList <+: f.message.toList ↔ found = none := by
  have happend : "Syntax Error: Unexpected end of file".toList =
      "Syntax Error: Unexpected ".toList ++ "end of file".toList := by decide
  rw [message, h, happend]
  simp only [String.toList_append, List.append_assoc, List.prefix_append_right_inj]
  cases found with
  | none => simp [Failure.found]
  | some c =>
    have hmark := mark_eq [c]
    rcases hmark with hmark | hmark <;> simp [Failure.found, quote, Quoted.chars, hmark]

/-! ## The furthest failure and the end of a match -/

namespace Run

variable {run : Run ν α} {text : Text}

/-- The last report is at the furthest failure, or at the end of the match if that is behind it. -/
lemma position_lastFrontier (run : Run ν α) (stop : Option Nat) :
    (run.lastFrontier stop).position = max run.frontier.position (stop.getD 0) := by
  cases stop with
  | none => simp [lastFrontier]
  | some stop =>
    simp only [lastFrontier, Frontier.note, Option.getD_some]
    split
    · rename_i hlt
      exact (Nat.max_eq_right (Nat.le_of_lt hlt)).symm
    · rename_i hlt
      have hmax := Nat.max_eq_left (Nat.not_lt.1 hlt)
      split
      · rename_i heq
        exact heq.trans hmax.symm
      · exact hmax.symm

/-- Where the end of a match is the furthest place, the end of input was expected. -/
lemma endOfInput_mem_lastFrontier {stop : Nat}
    (h : (run.lastFrontier (some stop)).position = stop) :
    "end of input" ∈ (run.lastFrontier (some stop)).expected := by
  simp only [lastFrontier, Frontier.note] at h ⊢
  split
  · exact List.mem_singleton_self _
  · rename_i hlt
    split
    · exact (mem_insertSorted _ _ _).2 (.inl rfl)
    · rename_i hne
      rw [if_neg hlt, if_neg hne] at h
      exact absurd h.symm hne

/-- If there was a match, then something was expected: the end of input, or what was missing behind
it. -/
lemma lastFrontier_expected_ne_nil {bound stop : Nat} (h : run.frontier.Within bound) :
    (run.lastFrontier (some stop)).expected ≠ [] := by
  intro hnil
  -- If the report points behind the match, then something was missing there before the match was
  -- known.
  by_cases heq : (run.lastFrontier (some stop)).position = stop
  · have hmem := endOfInput_mem_lastFrontier heq
    rw [hnil] at hmem
    cases hmem
  · have hposition := run.position_lastFrontier (some stop)
    rw [Option.getD_some] at hposition
    have hkept : run.lastFrontier (some stop) = run.frontier := by
      simp only [lastFrontier, Frontier.note]
      rw [if_neg (by omega), if_neg (by omega)]
    rw [hkept] at hnil
    have hzero := h.position_eq_zero hnil
    omega

/-- The last report is within the bound if the match ends within it. -/
lemma within_lastFrontier {bound : Nat} (h : run.frontier.Within bound) {stop : Option Nat}
    (hs : stop.getD 0 ≤ bound) : (run.lastFrontier stop).Within bound := by
  cases stop with
  | none => exact h
  | some stop => exact h.note hs _

end Run

/-- A parse that reports a failure, though not that rules are nested too deep, reports what was
missing with the end of the match taken into account. -/
lemma eq_failure_of_conclude {text : Text} {answer : Answer ν α (Match α)} {failure : Failure}
    (h : answer.conclude text = .error (.failure failure)) (hr : failure.reason ≠ .tooDeep) :
    failure = answer.2.failure text answer.1.stop? := by
  obtain ⟨outcome, run⟩ := answer
  cases outcome with
  | matched result =>
    simp only [Answer.conclude] at h
    split at h <;> cases h
    rfl
  | unmatched =>
    cases h
    rfl
  | stopped cause =>
    cases cause with
    | flaw flaw => cases h
    | tooDeep =>
      cases h
      exact absurd rfl hr

namespace Grammar

/-- Every application inside one that starts inside a text starts there too, in a state in which all
that was missing was missing inside the text. -/
lemma MakesAll.inText {g : Grammar ν α} {text : Text} {outer inner : Application ν α}
    (h : g.MakesAll text outer inner) (hposition : outer.position ≤ text.size)
    (hrun : outer.run.InText text fun _ => false) :
    inner.position ≤ text.size ∧ inner.run.InText text fun _ => false := by
  refine @MakesAll.keeps _ _ _ g text (· ≤ text.size) (Run.InText text fun _ => false)
    (fun a hp hi => ?_) (fun run _ _ _ hi => ?_)
    (fun run event hi => ?_) outer inner h hposition hrun
  · obtain ⟨hafter, hresult⟩ :=
      keepsTo_apply g.advancing_of_none a.limit a.rule a.position a.scope hp a.run hi
    exact ⟨hafter, fun result hout => (hresult result hout).stop_le⟩
  · exact ⟨hi.frontier, hi.remembered⟩
  · exact hi.heard (.record run event) (memo_record run event) (by simp)

/-- Matches and missing pieces are inside the text: of a rule that is applied inside a text in a
fresh state, and of all applications that this one makes, where failures are reported each at its
own position. A report that is not about the limit points to the furthest of them, or to the end of
the match if that is behind; it lists what was expected there in order, which is something if there
was a match, and the end of input if it points to the end of that; and its message speaks of the end
of the file just if it points there. -/
theorem failure_in_text (g : Grammar ν α) (text : String) :
    (∀ limit rule position scope memoize tracing, position ≤ text.length →
      ∀ inner, g.MakesAll (.ofString text)
          ⟨limit, rule, position, scope, .fresh memoize tracing⟩ inner →
        inner.position ≤ text.length ∧
        inner.run.frontier.position ≤ text.length ∧
        (inner.answer g (.ofString text)).2.frontier.position ≤ text.length ∧
        ∀ result, (inner.answer g (.ofString text)).1 = .matched result →
          inner.position ≤ result.stop ∧ result.stop ≤ text.length) ∧
    ∀ settings start failure, g.parse settings start text = .error (.failure failure) →
      failure.reason ≠ .tooDeep →
      let answer := g.run settings start (.ofString text)
      failure.position = max answer.2.frontier.position (answer.1.stop?.getD 0) ∧
      failure.position ≤ text.length ∧
      failure.expected.Pairwise (· < ·) ∧
      ("Syntax Error: Unexpected end of file".toList <+: failure.message.toList ↔
        failure.position = text.length) ∧
      ∀ result, answer.1 = .matched result →
        failure.expected ≠ [] ∧
        (failure.position = result.stop → "end of input" ∈ failure.expected) := by
  have hsize := Text.size_ofString text
  constructor
  · intro limit rule position scope memoize tracing hp inner hinner
    obtain ⟨hposition, hrun⟩ := hinner.inText (by simpa using hp) (.fresh memoize tracing)
    obtain ⟨hafter, hresult⟩ :=
      keepsTo_apply g.advancing_of_none inner.limit inner.rule inner.position inner.scope hposition
        inner.run hrun
    rw [← hsize]
    exact ⟨hposition, hrun.frontier.position_le, hafter.frontier.position_le,
      fun result hout => ⟨(hresult result hout).start_le, (hresult result hout).stop_le⟩⟩
  · intro settings start failure hparse hreason answer
    obtain ⟨hafter, hresult⟩ :=
      keepsTo_apply g.advancing_of_none settings.limit start 0 [] (Nat.zero_le _) _
        (Run.InText.fresh settings.memoize settings.tracing)
    change answer.2.InText _ _ at hafter
    change ∀ result, answer.1 = .matched result → _ at hresult
    have hstop : answer.1.stop?.getD 0 ≤ (Text.ofString text).size := by
      cases hout : answer.1 with
      | matched result => exact (hresult result hout).stop_le
      | unmatched | stopped _ => exact Nat.zero_le _
    have hwithin := Run.within_lastFrontier hafter.frontier hstop
    obtain rfl := eq_failure_of_conclude hparse hreason
    refine ⟨answer.2.position_lastFrontier _, hsize ▸ hwithin.position_le,
      hwithin.pairwise_expected, ?_, fun result hout => ?_⟩
    · rw [Failure.endOfFile_prefix_iff rfl, Text.char?, Array.getElem?_eq_none_iff, ← hsize]
      exact ⟨fun hle => Nat.le_antisymm hwithin.position_le hle, fun heq => Nat.le_of_eq heq.symm⟩
    · have hlast : (answer.2.failure (.ofString text) answer.1.stop?).expected =
          (answer.2.lastFrontier (some result.stop)).expected := by rw [hout]; rfl
      have hat : (answer.2.failure (.ofString text) answer.1.stop?).position =
          (answer.2.lastFrontier (some result.stop)).position := by rw [hout]; rfl
      rw [hlast, hat]
      exact ⟨Run.lastFrontier_expected_ne_nil hafter.frontier, Run.endOfInput_mem_lastFrontier⟩

end Grammar

namespace Program

/-- The report that a letter stands behind `nil`, where the match of an object ends. -/
theorem failure_in_text_nil :
    ∃ failure result, grammar.parse {} (.named .object) "nilx" = .error (.failure failure) ∧
      (grammar.run {} (.named .object) (.ofString "nilx")).1 = .matched result ∧
      result.stop ≤ "nilx".length ∧ failure.position = result.stop ∧
      "end of input" ∈ failure.expected := by
  have hfailure : (match grammar.parse {} (.named .object) "nilx" with
      | .error (.failure failure) => decide (failure.reason ≠ .tooDeep ∧ failure.position = 3)
      | _ => false) = true := by decide +kernel
  have hresult : (grammar.run {} (.named .object) (.ofString "nilx")).1.stop? = some 3 := by
    decide +kernel
  cases hparse : grammar.parse {} (.named .object) "nilx" with
  | ok value => simp [hparse] at hfailure
  | error error =>
    cases error with
    | flaw flaw => simp [hparse] at hfailure
    | failure failure =>
      rw [hparse] at hfailure
      obtain ⟨hreason, hposition⟩ := of_decide_eq_true hfailure
      cases hout : (grammar.run {} (.named .object) (.ofString "nilx")).1 with
      | unmatched | stopped _ =>
        rw [hout] at hresult
        cases hresult
      | matched result =>
        rw [hout] at hresult
        have hstop : result.stop = 3 := Option.some.inj hresult
        obtain ⟨hmatches, hreports⟩ := grammar.failure_in_text "nilx"
        obtain ⟨-, -, -, hends⟩ :=
          hmatches 1000 (.named .object) 0 [] true false (Nat.zero_le _) _ .refl
        obtain ⟨-, -, -, -, hexpected⟩ := hreports {} (.named .object) failure hparse hreason
        exact ⟨failure, result, rfl, rfl, (hends result hout).2, hposition.trans hstop.symm,
          (hexpected result hout).2 (hposition.trans hstop.symm)⟩

end Program

end Packrat
