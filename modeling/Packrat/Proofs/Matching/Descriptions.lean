import Packrat.Parsing.Parse
import Packrat.Proofs.Matching.Keeping
import Packrat.Proofs.Text.Quoted
set_option autoImplicit false
set_option relaxedAutoImplicit false

/-!
# What failures say

A failure lists what would have been accepted where the text goes wrong: quoted texts, sets of
characters, and the names that rules have for error messages. So what holds of all of these holds of
every description in a failure. In particular a message has no unprintable character in it, and
hence no line break, whatever stands in the text, as long as there is none in those names.

## Main definitions

* `Packrat.Grammar.Describes` — a property of all descriptions that a grammar can make.
* `Packrat.Matcher.Tells` — a matcher under which only such descriptions are added.
* `Packrat.IsPrintable` — a text without unprintable characters.

## Main results

* `Packrat.Grammar.tells_apply` — applications add only descriptions that the grammar can make.
* `Packrat.Grammar.printable_render` — the report of a failure is printable.
-/

namespace Packrat

variable {ν α : Type} [DecidableEq ν]

/-- The property holds of everything that a grammar can report as missing. -/
structure Grammar.Describes (g : Grammar ν α) (D : String → Prop) : Prop where
  quote : ∀ s, D (quote s)
  charSet : ∀ set : CharSet, D set.render
  any : D "any character"
  errorName : ∀ x description, (g.define x).errorName = some description → D description

/-- The property holds of all that was missing at the furthest failure. -/
def Run.Expects (D : String → Prop) (run : Run ν α) : Prop := ∀ s ∈ run.frontier.expected, D s

variable {D : String → Prop}

/-! ## States -/

/-- One more report adds nothing to the furthest failure but its own description. -/
lemma Frontier.forall_mem_note {f : Frontier} {position : Nat} {description : String}
    (hf : ∀ s ∈ f.expected, D s) (hd : D description) :
    ∀ s ∈ (f.note position description).expected, D s := by
  intro s hs
  unfold Frontier.note at hs
  split at hs
  · rcases List.mem_singleton.1 hs with rfl
    exact hd
  · split at hs
    · rcases (mem_insertSorted _ _ _).1 hs with rfl | hs
      · exact hd
      · exact hf s hs
    · exact hf s hs

namespace Run

variable {run : Run ν α}

/-- Nothing is missing in a fresh state. -/
lemma expects_fresh (memoize tracing : Bool) : (Run.fresh memoize tracing : Run ν α).Expects D :=
  fun _ hs => absurd hs List.not_mem_nil

/-- A report of something with the property keeps it. -/
lemma Expects.fail {position : Nat} {description : String} (h : run.Expects D)
    (hd : D description) :
    (run.fail position description).Expects D := by
  unfold Run.fail
  split
  · exact Frontier.forall_mem_note h hd
  · exact h

/-- An entry of the trace changes nothing about what was missing. -/
lemma Expects.record (h : run.Expects D) (event : Event ν) : (run.record event).Expects D := by
  unfold Run.record
  split <;> exact h

end Run

/-- What was missing has nothing to do with the counters and the trace. -/
lemma Run.invariant_expects : Run.Invariant (Run.Expects D : Run ν α → Prop) where
  within _ _ _ h := h
  record _ event h := h.record event

/-! ## Rows, choices and repetitions -/

/-- A matcher that adds only descriptions with the property, whatever it applies. -/
def Matcher.Tells (D : String → Prop) (m : Matcher ν α) : Prop :=
  ∀ rule position scope, Action.Keeps (Run.Expects D) (fun _ => True) (m rule position scope)

namespace Matcher

variable {m : Matcher ν α}

/-- A row of rules reports what its parts report. -/
lemma Tells.applyParts (h : m.Tells D) :
    ∀ (rules : List (Rule ν α)) (position : Nat) (scope : Scope),
    Action.Keeps (Run.Expects D) (fun _ => True) (m.applyParts rules position scope)
  | [], _, _ => .pure fun _ _ => trivial
  | rule :: rules, position, scope =>
    (h rule position scope).andThen fun first _ =>
      (Tells.applyParts h rules first.stop first.scope).andThen fun _ _ => .pure fun _ _ => trivial

/-- Alternatives report what each of them reports. -/
lemma Tells.applyChoice (h : m.Tells D) :
    ∀ (rules : List (Rule ν α)) (position : Nat) (scope : Scope),
    Action.Keeps (Run.Expects D) (fun _ => True) (m.applyChoice rules position scope)
  | [], _, _ => .pure fun _ _ => trivial
  | rule :: rules, position, scope => by
    rw [applyChoice_cons]
    exact (h rule position scope).onMismatch (Tells.applyChoice h rules position scope)

/-- The trips of a repetition report what its rule reports. -/
lemma Tells.applyTrips (h : m.Tells D) (rule : Rule ν α) (least : Int) (most : Option Int) :
    ∀ (budget : Nat) (count : Int) (position : Nat) (scope : Scope),
      Action.Keeps (Run.Expects D) (fun _ => True)
        (m.applyTrips rule least most budget count position scope)
  | 0, _, _, _ => .pure fun _ _ => trivial
  | budget + 1, count, position, scope => by
    rw [applyTrips_succ]
    split
    · exact .pure fun _ _ => trivial
    · refine (h rule position scope).handle fun outcome _ => ?_
      cases outcome with
      | unmatched | stopped _ => exact .pure fun _ _ => trivial
      | matched first =>
        simp only [afterTrip]
        split
        · exact .pure fun _ _ => trivial
        · exact (Tells.applyTrips h rule least most budget _ first.stop first.scope).andThen
            fun _ _ => .pure fun _ _ => trivial

end Matcher

/-! ## Applications -/

namespace Grammar

variable {g : Grammar ν α} (text : Text)

/-- The end of a named rule adds its name for error messages, if anything. -/
lemma Describes.settleOutcome (hg : g.Describes D) (key : Memo.Key ν)
    (outcome : Outcome α (Match α))
    {run : Run ν α} (h : run.Expects D) : (g.settleOutcome key outcome run).Expects D := by
  cases outcome with
  | stopped cause => exact h
  | matched result => exact h.record _
  | unmatched =>
    simp only [Grammar.settleOutcome, settle]
    cases hname : (g.define key.name).errorName with
    | none => exact h.record _
    | some description => exact (h.fail (hg.errorName _ _ hname)).record _

/-- A named rule adds what its body adds, and its name for error messages. -/
lemma Describes.applyNamed (hg : g.Describes D) {m : Matcher ν α} (h : m.Tells D) (x : ν)
    (position : Nat) (scope : Scope) :
    Action.Keeps (Run.Expects D) (fun _ => True) (g.applyNamed m x position scope) :=
  .applyNamed (fun _ => True) Run.invariant_expects (fun _ _ _ _ => trivial)
    (fun _ _ outcome hafter _ => hg.settleOutcome _ outcome hafter)
    (fun body _ => h body position []) scope

/-- Applications add only descriptions that the grammar can make.

**Proof sketch.** Induction on the limit. Every form of rule is put together from applications under
the limit below and from reports, and each report is of a kind that the property holds of. -/
theorem tells_apply (hg : g.Describes D) : ∀ limit, Matcher.Tells D (g.apply text limit)
  | 0 => fun _ _ _ => .pure fun _ _ => trivial
  | limit + 1 => by
    have ih := tells_apply hg limit
    intro rule position scope
    cases rule with
    | literal s =>
      rw [apply_literal_eq]
      exact .passOrMiss (fun _ hrun => hrun.fail (hg.quote s)) fun _ => trivial
    | charSet set =>
      rw [apply_charSet_eq]
      exact .passOrMiss (fun _ hrun => hrun.fail (hg.charSet set)) fun _ => trivial
    | any =>
      rw [apply_any_eq]
      exact .passOrMiss (fun _ hrun => hrun.fail hg.any) fun _ => trivial
    | lineStart =>
      rw [apply_lineStart_eq]
      exact .pure fun _ _ => trivial
    | sequence rules =>
      refine (ih.applyParts rules position scope).andThen fun row _ => ?_
      split <;> exact .pure fun _ _ => trivial
    | choice rules => exact ih.applyChoice rules position scope
    | repetition rule least most =>
      refine (ih.applyTrips rule least most _ 0 position scope).andThen fun trips _ => ?_
      split
      · exact .pure fun _ _ => trivial
      · split <;> exact .pure fun _ _ => trivial
    | optional rule =>
      rw [apply_optional_eq]
      exact (ih rule position scope).onMismatch (.pure fun _ _ => trivial)
    | lookahead negative rule =>
      rw [apply_lookahead_eq]
      exact ((ih rule position scope).within Run.invariant_expects 1 0).handle fun _ _ =>
        .pure fun _ _ => trivial
    | capture name rule =>
      exact (ih rule position scope).andThen fun _ _ => .pure fun _ _ => trivial
    | build builder rule =>
      refine (ih rule position scope).andThen fun result _ => ?_
      split <;> exact .pure fun _ _ => trivial
    | bind name rule => exact (ih rule position scope).andThen fun _ _ => .pure fun _ _ => trivial
    | backref name =>
      rw [apply_backref_eq]
      split
      · exact .pure fun _ _ => trivial
      · exact .passOrMiss (fun _ hrun => hrun.fail (hg.quote _)) fun _ => trivial
    | named x =>
      cases limit with
      | zero => exact .pure fun _ _ => trivial
      | succ limit => exact hg.applyNamed (tells_apply hg limit) x position scope

/-- Everything that a failure expects is something that the grammar can report as missing, or the
end of input. -/
lemma Describes.failure (hg : g.Describes D) (hend : D "end of input") {settings : Settings}
    {start : Rule ν α}
    {text : String} {failure : Failure}
    (h : g.parse settings start text = .error (.failure failure)) :
    ∀ s ∈ failure.expected, D s := by
  have hrun : (g.run settings start (.ofString text)).2.Expects D :=
    (tells_apply (.ofString text) hg settings.limit start 0 [] _ (Run.expects_fresh _ _)).1
  rw [parse] at h
  rcases hanswer : g.run settings start (.ofString text) with ⟨result | _ | _ | _, run⟩ <;>
    rw [hanswer] at h hrun <;> simp only [Answer.conclude] at h
  · split at h <;> cases h
    exact Frontier.forall_mem_note hrun hend
  · cases h
    exact hrun
  · cases h
    exact nofun
  · cases h

end Grammar

/-! ## Printable texts -/

/-- No character of the text is unprintable. -/
def IsPrintable (s : String) : Prop := ∀ c ∈ s.toList, isUnprintable c = false

/-- Whether a text is printable is decided character by character. -/
instance (s : String) : Decidable (IsPrintable s) :=
  List.decidableBAll (fun c => isUnprintable c = false) s.toList

namespace IsPrintable

/-- A printable text behind another one is printable. -/
lemma append {s t : String} (hs : IsPrintable s) (ht : IsPrintable t) : IsPrintable (s ++ t) := by
  intro c hc
  rw [String.toList_append, List.mem_append] at hc
  exact hc.elim (hs c) (ht c)

/-- Printable texts in a row are printable. -/
lemma join {parts : List String} (h : ∀ s ∈ parts, IsPrintable s) :
    IsPrintable (String.join parts) := by
  intro c hc
  rw [String.toList_join] at hc
  obtain ⟨s, hs, hc⟩ := List.mem_flatMap.1 hc
  exact h s hs c hc

/-- Printable texts with a printable separator between them are printable. -/
lemma intercalate {separator : String} (hseparator : IsPrintable separator) :
    ∀ {parts : List String}, (∀ s ∈ parts, IsPrintable s) →
      IsPrintable (separator.intercalate parts)
  | [], _ => by
    intro c hc
    simp at hc
  | [s], h => by simpa using h s (List.mem_singleton_self s)
  | s :: t :: parts, h => by
    have hrest := intercalate hseparator fun u hu => h u (List.mem_cons_of_mem s hu)
    rw [String.intercalate_cons_cons]
    exact ((h s List.mem_cons_self).append hseparator).append hrest

/-- Quoted texts are printable, because everything else is written with an escape. -/
lemma quote (s : String) : IsPrintable (quote s) := fun _ hc => printable_of_mem_quote hc

/-- A quoted character is printable without the marks around it, too. -/
lemma quoteBare (c : Char) : IsPrintable (quoteBare c) := by
  intro d hd
  rw [Packrat.quoteBare, String.toList_ofList, Quoted.body] at hd
  obtain ⟨c', -, hd⟩ := List.mem_flatMap.1 hd
  exact Quoted.printable_of_mem_escape (Quoted.mark_cases [c]) hd

/-- A span of characters is printed by its ends. -/
lemma span (s : Span) : IsPrintable s.render := by
  rw [Span.render]
  split
  · exact quoteBare s.first
  · exact ((quoteBare s.first).append (by decide)).append (quoteBare s.last)

/-- A set of characters is printed by its spans. -/
lemma charSet (set : CharSet) : IsPrintable set.render := by
  rw [CharSet.render]
  refine .append (.append (by decide) (.join fun s hs => ?_)) (by decide)
  obtain ⟨sp, -, rfl⟩ := List.mem_map.1 hs
  exact span sp

/-- Decimal numbers are printable. -/
lemma nat (n : Nat) : IsPrintable (toString n) := by
  intro c hc
  have hmem : c ∈ Nat.toDigits 10 n := by simpa using hc
  have hdigit := Nat.isDigit_of_mem_toDigits (by decide) (by decide) hmem
  simp only [Char.isDigit, Bool.and_eq_true, decide_eq_true_eq] at hdigit
  have hlow : 48 ≤ c.toNat := hdigit.1
  have hhigh : c.toNat ≤ 57 := hdigit.2
  rw [isUnprintable, if_pos (by omega), decide_eq_false_iff_not]
  omega

end IsPrintable

/-- A message is printable if everything is that would have been accepted. -/
lemma Failure.printable_message {f : Failure} (h : ∀ s ∈ f.expected, IsPrintable s) :
    IsPrintable f.message := by
  rw [Failure.message]
  split
  · decide
  · rename_i found? _
    have hfound : IsPrintable (Failure.found found?) := by
      cases found? with
      | none => decide
      | some c => exact .quote _
    refine .append (.append (by decide) hfound) ?_
    split
    · decide
    · exact .append (by decide) (.intercalate (by decide) h)

namespace Grammar

omit [DecidableEq ν] in
/-- If the names for error messages are printable, so is every description. -/
lemma describes_printable {g : Grammar ν α}
    (h : ∀ x description, (g.define x).errorName = some description → IsPrintable description) :
    g.Describes IsPrintable :=
  ⟨.quote, .charSet, by decide, h⟩

/-- The report of a failure has no unprintable character in it, whatever the text is, if the names
for error messages have none. -/
theorem printable_render {g : Grammar ν α}
    (h : ∀ x description, (g.define x).errorName = some description → IsPrintable description)
    {settings : Settings} {start : Rule ν α} {text : String} {failure : Failure}
    (hfailure : g.parse settings start text = .error (.failure failure)) :
    IsPrintable failure.render := by
  have hexpected := (describes_printable h).failure (by decide) hfailure
  refine .append (.append (.append (.append (.nat _) ?_) (.nat _)) ?_)
    (Failure.printable_message hexpected) <;>
    decide

end Grammar

end Packrat
