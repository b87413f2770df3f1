import Packrat.Proofs.Matching.Keeping
import Packrat.Proofs.Matching.Stretch
import Packrat.Proofs.Parsing.Memoization
set_option autoImplicit false
set_option relaxedAutoImplicit false

/-!
# Rules behind the end of a text

Nothing stands behind the end of a text, not even the empty text. A rule that is applied there may
still match, such as one that is optional, but ends where it started; and a rule that is known to
take a character does not match at all.

Together with the stretches that rules match inside a text, this says of every position and every
sound state where a match can end.

## Main definitions

* `Packrat.Run.Blank` — states in which nothing is remembered.
* `Packrat.Matcher.Idles` — rules behind the end of the text end where they started.

## Main results

* `Packrat.Grammar.Yields.stretch` — a match is a stretch of the text, or stays in place behind its
  end.
* `Packrat.Grammar.stop_of_matched` — a match ends where it started, or further on and inside the
  text.
-/

namespace Packrat

variable {ν α β : Type} [DecidableEq ν]

/-! ## States without memory -/

/-- Nothing is remembered in the state. -/
def Run.Blank (run : Run ν α) : Prop := run.memo = none

namespace Run.Blank

variable {run : Run ν α}

/-- A report is not remembered. -/
lemma fail (h : run.Blank) (position : Nat) (description : String) :
    (run.fail position description).Blank :=
  (Grammar.memo_fail run position description).trans h

/-- Where nothing is remembered, nothing is remembered of the end of a named rule, either. -/
lemma settleOutcome (h : run.Blank) (g : Grammar ν α) (key : Memo.Key ν)
    (outcome : Outcome α (Match α)) : (g.settleOutcome key outcome run).Blank := by
  rw [Run.Blank, Grammar.memo_settleOutcome, h]
  cases outcome <;> rfl

end Run.Blank

/-- Whether anything is remembered has nothing to do with the counters and the trace. -/
lemma Run.invariant_blank : Run.Invariant (Run.Blank : Run ν α → Prop) where
  within _ _ _ h := h
  record run event h := (Grammar.memo_record run event).trans h

/-- As long as nothing is remembered, a named rule ends as its body does. -/
lemma Action.Keeps.applyNamed_of_blank {g : Grammar ν α} {m : Matcher ν α} {x : ν} {position : Nat}
    (good : Ending α → Prop)
    (h : ∀ body, (g.define x).body = .ok body →
      Action.Keeps Run.Blank (fun result => good result.toEnding) (m body position []))
    (scope : Scope) :
    Action.Keeps Run.Blank (fun result => good result.toEnding)
      (g.applyNamed m x position scope) := by
  refine .applyNamed good Run.invariant_blank (fun run ending hrun hr => ?_)
    (fun _ _ outcome hafter _ => hafter.settleOutcome g _ outcome) h scope
  rw [Run.remembered?, show run.memo = none from hrun] at hr
  cases hr

/-- From a sound state, a result is as it should be if all results are, as long as nothing is
remembered. -/
lemma Grammar.Lawful.good {g : Grammar ν α} {text : Text} {c : Nat → Action ν α β} {limit : Nat}
    (h : g.Lawful text c limit) {good : β → Prop} (hgood : ∀ any, (c any).Keeps Run.Blank good)
    {run : Run ν α}
    (hs : run.Sound g text) {result : β} (hout : (c limit run).1 = .matched result) :
    good result := by
  obtain ⟨any, reports, hanswers, -⟩ := (h.faithful run hs).answers (by rw [hout]; nofun)
  have hplain := (hanswers (.fresh false false) rfl (Int.le_refl _)).1
  exact (hgood any (.fresh false false) rfl).2 result (hplain.trans hout)

/-! ## Nothing is taken -/

namespace Matcher

variable {m : Matcher ν α} {text : Text} {known : ν → Bool}

variable (text known) in
/-- A matcher under which rules that are applied behind the end of the text end where they started,
and do not match if they are known to take a character. -/
def Idles (m : Matcher ν α) : Prop :=
  ∀ rule position scope, text.size < position →
    Action.Keeps Run.Blank (fun result => result.stop = position ∧ rule.advances known = false)
      (m rule position scope)

/-- A row of rules behind the end of the text ends where it started, and takes no character. -/
lemma Idles.applyParts (h : m.Idles text known) :
    ∀ (rules : List (Rule ν α)) (position : Nat) (scope : Scope), text.size < position →
      Action.Keeps Run.Blank
        (fun row => row.stop = position ∧ Rule.advances.anyAdvances known rules = false)
        (m.applyParts rules position scope)
  | [], _, _, _ => .matched ⟨rfl, rfl⟩
  | rule :: rules, position, scope, hp => by
    refine (h rule position scope hp).andThen fun first ⟨hstop, hfirst⟩ => ?_
    rw [hstop]
    exact (Idles.applyParts h rules position first.scope hp).andThen fun _ ⟨hstop, hothers⟩ =>
      .matched ⟨hstop, Bool.or_eq_false_iff.2 ⟨hfirst, hothers⟩⟩

/-- An alternative that matches behind the end of the text ends where it started, and takes no
character. -/
lemma Idles.applyChoice (h : m.Idles text known) :
    ∀ (rules : List (Rule ν α)) (position : Nat) (scope : Scope), text.size < position →
      Action.Keeps Run.Blank
        (fun result => result.stop = position ∧ Rule.advances.allAdvance known rules = false)
        (m.applyChoice rules position scope)
  | [], _, _, _ => .unmatched
  | rule :: rules, position, scope, hp => by
    rw [applyChoice_cons]
    refine (h rule position scope hp).handle fun outcome hout => ?_
    cases outcome with
    | stopped cause => exact .stopped cause
    | matched result =>
      obtain ⟨hstop, hfirst⟩ := hout result rfl
      exact .matched ⟨hstop, by rw [Rule.advances.allAdvance, hfirst, Bool.false_and]⟩
    | unmatched =>
      refine (Idles.applyChoice h rules position scope hp).mono fun result ⟨hstop, hothers⟩ =>
        ⟨hstop, ?_⟩
      rw [Rule.advances.allAdvance, hothers, Bool.and_false]

/-- Behind the end of the text there is one trip at most, and none with a rule that takes a
character. -/
lemma Idles.applyTrips (h : m.Idles text known) (rule : Rule ν α) (least : Int) (most : Option Int)
    (count : Int) {position : Nat} (hp : text.size < position) (scope : Scope) :
    ∀ budget, Action.Keeps Run.Blank
      (fun trips => trips.stop = position ∧ (trips.count ≠ count → rule.advances known = false))
      (m.applyTrips rule least most budget count position scope)
  | 0 => .matched ⟨rfl, fun hne => absurd rfl hne⟩
  | budget + 1 => by
    rw [applyTrips_succ]
    split
    · exact .matched ⟨rfl, fun hne => absurd rfl hne⟩
    · refine (h rule position scope hp).handle fun outcome hout => ?_
      cases outcome with
      | unmatched => exact .matched ⟨rfl, fun hne => absurd rfl hne⟩
      | stopped cause => exact .stopped cause
      | matched first =>
        obtain ⟨hstop, hfirst⟩ := hout first rfl
        simp only [afterTrip, hstop, if_true]
        exact .matched ⟨rfl, fun _ => hfirst⟩

end Matcher

namespace Grammar

variable {g : Grammar ν α} {text : Text} {known : ν → Bool} {position : Nat} {scope : Scope}

/-- A named rule behind the end of the text ends where it started, as its body does. -/
lemma idle_applyNamed {m : Matcher ν α} (h : m.Idles text known) (hknown : g.Advancing known)
    (x : ν) (hp : text.size < position) (scope : Scope) :
    Action.Keeps Run.Blank (fun result => result.stop = position ∧ known x = false)
      (g.applyNamed m x position scope) := by
  refine .applyNamed_of_blank (fun ending => ending.stop = position ∧ known x = false)
    (fun body hbody => ?_) scope
  refine (h body position [] hp).mono fun result ⟨hstop, hidle⟩ =>
    ⟨hstop, Bool.eq_false_iff.2 fun hx => ?_⟩
  exact absurd (hknown x body hx hbody) (by simp [hidle])

/-- Nothing is read behind the end of a text. -/
lemma not_reads_of_beyond (hp : text.size < position) (cs : List Char) :
    text.hasAt cs position = false ∧ text.char? position = none := by
  refine ⟨Bool.eq_false_iff.2 fun hat => ?_, Array.getElem?_eq_none (Nat.le_of_lt hp)⟩
  exact absurd ((text.hasAt_iff cs position).1 hat).1 (Nat.not_le.2 hp)

/-- Rules that are applied behind the end of a text end where they started, and do not match if they
are known to take a character.

**Proof sketch.** Induction on the limit. Characters and texts are never found behind the end, and
neither is the start of a line. What else a rule takes is what its inner rules take. -/
theorem idles_apply (hknown : g.Advancing known) :
    ∀ limit, Matcher.Idles text known (g.apply text limit)
  | 0 => fun _ _ _ _ => .stopped _
  | limit + 1 => by
    have ih := idles_apply hknown limit
    intro rule position scope hp
    cases rule with
    | named x =>
      cases limit with
      | zero => exact .stopped _
      | succ limit => exact idle_applyNamed (idles_apply hknown limit) hknown x hp scope
    | literal s =>
      rw [apply_literal_eq, (not_reads_of_beyond hp _).1]
      exact .missing fun _ hrun => hrun.fail _ _
    | charSet set =>
      rw [apply_charSet_eq, (not_reads_of_beyond hp []).2]
      exact .missing fun _ hrun => hrun.fail _ _
    | any =>
      rw [apply_any_eq, (not_reads_of_beyond hp []).2]
      exact .missing fun _ hrun => hrun.fail _ _
    | lineStart =>
      obtain ⟨before, rfl⟩ := Nat.exists_eq_add_one_of_ne_zero (Nat.ne_zero_of_lt hp)
      have hnone : text.char? before = none := Array.getElem?_eq_none (Nat.le_of_lt_succ hp)
      have hstarts : text.startsLine? (before + 1) = none := by rw [Text.startsLine?, hnone]; rfl
      rw [apply_lineStart_eq, lineStartOutcome, hstarts]
      exact .stopped _
    | sequence rules =>
      refine (ih.applyParts rules position scope hp).andThen fun row hrow => ?_
      split
      · exact .stopped _
      · exact .matched hrow
    | choice rules => exact ih.applyChoice rules position scope hp
    | repetition rule least most =>
      refine (ih.applyTrips rule least most 0 hp scope _).andThen fun trips hmoved => ?_
      obtain ⟨hstop, htrips⟩ := hmoved
      split
      · exact .unmatched
      · rename_i hcount
        split
        · exact .stopped _
        · refine .matched ⟨hstop, ?_⟩
          by_cases hleast : 1 ≤ least
          · simp [Rule.advances, htrips (by omega)]
          · simp [Rule.advances, hleast]
    | optional rule =>
      rw [apply_optional_eq]
      refine (ih rule position scope hp).handle fun outcome hout => ?_
      cases outcome with
      | matched result => exact .matched ⟨(hout result rfl).1, rfl⟩
      | unmatched => exact .matched ⟨rfl, rfl⟩
      | stopped cause => exact .stopped cause
    | lookahead negative rule =>
      rw [apply_lookahead_eq]
      refine ((ih rule position scope hp).within Run.invariant_blank 1 0).handle fun outcome _ =>
        .pure fun result hout => ?_
      cases outcome <;> cases negative <;> cases hout <;> exact ⟨rfl, rfl⟩
    | capture name rule =>
      exact (ih rule position scope hp).andThen fun _ hresult => .matched hresult
    | build builder rule =>
      refine (ih rule position scope hp).andThen fun result hresult => ?_
      split
      · exact .stopped _
      · exact .matched hresult
    | bind name rule =>
      exact (ih rule position scope hp).andThen fun _ hresult => .matched hresult
    | backref name =>
      rw [apply_backref_eq]
      split
      · exact .stopped _
      · rw [(not_reads_of_beyond hp _).1]
        exact .missing fun _ hrun => hrun.fail _ _

/-! ## Where matches end -/

variable {rule : Rule ν α} {result : Match α}

/-- A match is a stretch of the text, which is not empty if the rule is known to take a character;
or it stays in place behind the end. -/
theorem Yields.stretch (hknown : g.Advancing known)
    (h : g.Yields text rule position scope (.matched result)) :
    text.Stretch (rule.advances known) position result.stop ∨
      text.size < position ∧ result.stop = position ∧ rule.advances known = false := by
  obtain ⟨-, limit, reports, hanswers⟩ := h
  have hout := (hanswers (.fresh false false) rfl (Int.le_refl _)).1
  by_cases hp : position ≤ text.size
  · exact .inl ((keepsTo_apply hknown limit rule position scope hp _ (.fresh false false)).2
      result hout)
  · have hbeyond := Nat.lt_of_not_le hp
    exact .inr ⟨hbeyond,
      (idles_apply hknown limit rule position scope hbeyond (.fresh false false) rfl).2
        result hout⟩

/-- From a sound state, a match ends where it started, or further on and inside the text. -/
theorem stop_of_matched {limit : Nat} {run : Run ν α} (hrun : run.Sound g text)
    (h : (g.apply text limit rule position scope run).1 = .matched result) :
    result.stop = position ∨ position < result.stop ∧ result.stop ≤ text.size := by
  have hyields := yields_apply hrun (by rw [h]; nofun)
  rw [h] at hyields
  rcases hyields.stretch g.advancing_of_none with hstretch | ⟨-, hstop, -⟩
  · have hle := hstretch.start_le
    have hle' := hstretch.stop_le
    omega
  · exact .inl hstop

/-- From a sound state, a rule that is known to take a character matches inside the text. -/
theorem stretch_of_matched (hknown : g.Advancing known) (hrule : rule.advances known = true)
    {limit : Nat} {run : Run ν α} (hrun : run.Sound g text)
    (h : (g.apply text limit rule position scope run).1 = .matched result) :
    text.Stretch true position result.stop := by
  have hyields := yields_apply hrun (by rw [h]; nofun)
  rw [h] at hyields
  rcases hyields.stretch hknown with hstretch | ⟨-, -, hfalse⟩
  · rwa [hrule] at hstretch
  · exact absurd hrule (by simp [hfalse])

end Grammar

end Packrat
