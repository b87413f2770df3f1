import Mathlib.Logic.Relation
import Packrat.Matching.Shift
import Packrat.Proofs.Matching.Stretch
import Packrat.Proofs.Matching.Taking
set_option autoImplicit false
set_option relaxedAutoImplicit false

/-!
# Rules in a fragment and in place

A text may stand behind another one. Rules look at nothing in front of the position at which they
are applied, except for the start of a line. So a rule does in the text what it does in place, if it
looks for the start of a line at most behind the beginning of the text, or not at all: it matches
the same characters and produces the same values. Positions differ by the length of the text in
front.

## Main definitions

* `Packrat.Grammar.Reaches` — a rule that is inside another one, or inside the bodies of the named
  rules there.
* `Packrat.Rule.sheltered` — whether a rule looks for the start of a line at most behind a
  character.
* `Packrat.Run.Alike` — states of the same work at two places.
* `Packrat.Grammar.Portable` — a rule that means the same in a fragment as in place.

## Main results

* `Packrat.Grammar.alike_apply` — sheltered rules do the same at two places.
* `Packrat.Grammar.portable_of_sheltered` — they mean the same in a fragment as in place.
-/

namespace Packrat

variable {ν α β γ : Type}

/-! ## Rules inside rules -/

namespace Grammar

/-- A rule leads to those directly inside it, and a named rule to its body. -/
inductive Leads (g : Grammar ν α) : Rule ν α → Rule ν α → Prop
  | child {rule inner : Rule ν α} (h : inner ∈ rule.children) : Leads g rule inner
  | body {x : ν} {body : Rule ν α} (h : (g.define x).body = .ok body) : Leads g (.named x) body

/-- A rule reaches itself, those to which it leads, those to which they lead, and so on. -/
abbrev Reaches (g : Grammar ν α) : Rule ν α → Rule ν α → Prop := Relation.ReflTransGen g.Leads

end Grammar

/-! ## Where the start of a line is looked for -/

/-- Whether a rule looks for the start of a line only where a character was taken, given the named
rules which are known to take one, and whether one was taken in front of the rule. A named rule
stands on its own here: its body has to be looked at by itself. -/
def Rule.sheltered (known : ν → Bool) : Rule ν α → Bool → Bool
  | .lineStart, moved => moved
  | .sequence rules, moved => partsSheltered rules moved
  | .choice rules, moved => allSheltered rules moved
  | .repetition rule _ _, moved | .optional rule, moved | .lookahead _ rule, moved
  | .capture _ rule, moved | .build _ rule, moved | .bind _ rule, moved =>
    rule.sheltered known moved
  | .literal _, _ | .charSet _, _ | .any, _ | .backref _, _ | .named _, _ => true
where
  /-- Whether this holds of the parts of a sequence, of which those in front may take a
  character. -/
  partsSheltered : List (Rule ν α) → Bool → Bool
    | [], _ => true
    | rule :: rules, moved =>
      rule.sheltered known moved && partsSheltered rules (moved || rule.advances known)
  /-- Whether this holds of each of some alternatives. -/
  allSheltered : List (Rule ν α) → Bool → Bool
    | [], _ => true
    | rule :: rules, moved => rule.sheltered known moved && allSheltered rules moved

namespace Grammar

variable {g : Grammar ν α} {known : ν → Bool}

mutual

/-- A rule that does not reach the start of a line does not look for it. -/
lemma sheltered_of_not_reaches :
    ∀ {rule : Rule ν α}, ¬ g.Reaches rule .lineStart → ∀ moved, rule.sheltered known moved = true
  | .lineStart, h, _ => absurd .refl h
  | .sequence _, h, moved =>
    partsSheltered_of_not_reaches (fun _ hr hreach => h (.head (.child hr) hreach)) moved
  | .choice _, h, moved =>
    allSheltered_of_not_reaches (fun _ hr hreach => h (.head (.child hr) hreach)) moved
  | .repetition _ _ _, h, moved | .optional _, h, moved | .lookahead _ _, h, moved
  | .capture _ _, h, moved | .build _ _, h, moved | .bind _ _, h, moved =>
    sheltered_of_not_reaches
      (fun hreach => h (.head (.child (List.mem_singleton_self _)) hreach)) moved
  | .literal _, _, _ | .charSet _, _, _ | .any, _, _ | .backref _, _, _ | .named _, _, _ => rfl

/-- Parts that do not reach the start of a line are sheltered from it, wherever they stand. -/
lemma partsSheltered_of_not_reaches :
    ∀ {rules : List (Rule ν α)}, (∀ rule ∈ rules, ¬ g.Reaches rule .lineStart) →
      ∀ moved, Rule.sheltered.partsSheltered known rules moved = true
  | [], _, _ => rfl
  | _ :: _, h, moved => Bool.and_eq_true_iff.2
    ⟨sheltered_of_not_reaches (h _ List.mem_cons_self) moved,
      partsSheltered_of_not_reaches (fun rule hr => h rule (List.mem_cons_of_mem _ hr)) _⟩

/-- Alternatives that do not reach the start of a line are sheltered from it. -/
lemma allSheltered_of_not_reaches :
    ∀ {rules : List (Rule ν α)}, (∀ rule ∈ rules, ¬ g.Reaches rule .lineStart) →
      ∀ moved, Rule.sheltered.allSheltered known rules moved = true
  | [], _, _ => rfl
  | _ :: _, h, moved => Bool.and_eq_true_iff.2
    ⟨sheltered_of_not_reaches (h _ List.mem_cons_self) moved,
      allSheltered_of_not_reaches (fun rule hr => h rule (List.mem_cons_of_mem _ hr)) moved⟩

end

variable (g known) in
/-- The bodies of all named rules that a rule reaches look for the start of a line at most behind a
character. -/
def ShelteredFrom (rule : Rule ν α) : Prop :=
  ∀ x body, g.Reaches rule (.named x) → (g.define x).body = .ok body →
    body.sheltered known false = true

/-- What a sheltered rule leads to is sheltered as well. -/
lemma ShelteredFrom.of_leads {rule inner : Rule ν α} (h : g.ShelteredFrom known rule)
    (hleads : g.Leads rule inner) : g.ShelteredFrom known inner :=
  fun x body hreach => h x body (.head hleads hreach)

end Grammar

/-! ## A text behind another one -/

namespace Text

/-- The text with another one in front of it. -/
def behind (t before : Text) : Text := ⟨before.chars ++ t.chars⟩

variable (t before : Text) (position : Nat)

/-- A text behind another one is the two of them joined. -/
lemma behind_ofString (text before : String) :
    (ofString text).behind (ofString before) = ofString (before ++ text) := by
  simp [behind, ofString]

/-- Behind a text, a text has the characters of both. -/
@[simp] lemma size_behind : (t.behind before).size = t.size + before.size := by
  simp [behind, size, Nat.add_comm]

/-- Behind a text, the characters of a text stand at later positions. -/
@[simp] lemma char?_behind :
    (t.behind before).char? (position + before.size) = t.char? position := by
  simp [char?, behind, size, Array.getElem?_append_right]

/-- Behind a text, the same characters stand in a row, only later. -/
lemma hasAt_behind (cs : List Char) :
    (t.behind before).hasAt cs (position + before.size) = t.hasAt cs position := by
  induction cs generalizing position with
  | nil => simp [hasAt]
  | cons c cs ih => rw [hasAt, hasAt, char?_behind, Nat.add_right_comm, ih]

/-- Behind a text, the same slices are cut out, only later. -/
lemma slice_behind (start stop : Nat) :
    (t.behind before).slice (start + before.size) (stop + before.size) = t.slice start stop := by
  simp only [slice, behind, size, Array.extract_append]
  simp

/-- Behind the beginning of the text it makes no difference to the start of a line what is in
front. -/
lemma startsLine?_behind (h : 0 < position) :
    (t.behind before).startsLine? (position + before.size) = t.startsLine? position := by
  obtain ⟨position, rfl⟩ := Nat.exists_eq_add_one_of_ne_zero (Nat.ne_of_gt h)
  rw [Nat.add_right_comm, startsLine?, startsLine?, char?_behind]

end Text

/-! ## States of the same work -/

/-- The same match so many positions later. -/
def Match.shift (amount : Nat) (result : Match α) : Match α :=
  { result with stop := result.stop + amount }

/-- The same row so many positions later. -/
def Row.shift (amount : Nat) (row : Row α) : Row α := { row with stop := row.stop + amount }

/-- The same trips so many positions later. -/
def Trips.shift (amount : Nat) (trips : Trips α) : Trips α :=
  { trips with stop := trips.stop + amount }

/-- The same key so many positions later. -/
def Memo.Key.shift (amount : Nat) (key : Memo.Key ν) : Memo.Key ν :=
  { key with position := key.position + amount }

/-- The same failures at places so far apart, or none at either of them yet. -/
def Frontier.Alike (amount : Nat) (here there : Frontier) : Prop :=
  there = here.shift amount ∨ here = {} ∧ there = {}

/-- The same report, moved along, leaves the furthest failures alike. -/
lemma Frontier.Alike.note {amount : Nat} {here there : Frontier} (h : here.Alike amount there)
    (position : Nat) (description : String) :
    (here.note position description).Alike amount (there.note (position + amount) description) := by
  have hfresh : ∀ p, ({} : Frontier).note p description = ⟨p, [description]⟩ := by
    intro p
    cases p <;> rfl
  -- Even where nothing was missing before, the two places are the shift apart from now on.
  left
  rcases h with rfl | ⟨rfl, rfl⟩
  · simp only [Frontier.note, Frontier.shift, Nat.add_lt_add_iff_right, Nat.add_right_cancel_iff]
    split
    · rfl
    · split <;> rfl
  · rw [hfresh, hfresh]
    rfl

variable [DecidableEq ν]

/-- States of the same work at places so far apart. -/
structure Run.Alike (amount : Nat) (here there : Run ν α) : Prop where
  frontier : here.frontier.Alike amount there.frontier
  quiet : there.quiet = here.quiet
  memoizes : there.memo.isSome = here.memo.isSome
  remembered : ∀ key, there.remembered? (key.shift amount) =
    (here.remembered? key).map (Option.map (Ending.shift amount))

namespace Run.Alike

variable {amount : Nat} {here there : Run ν α}

/-- Fresh states are alike, however far the text is moved. -/
lemma fresh (amount : Nat) (memoize tracing : Bool) :
    Run.Alike amount (Run.fresh memoize tracing : Run ν α) (Run.fresh memoize tracing) where
  frontier := .inr ⟨rfl, rfl⟩
  quiet := rfl
  memoizes := rfl
  remembered key := by cases memoize <;> simp [Run.fresh, Run.remembered?]

/-- The same named rule at a moved position has the moved key. -/
lemma key (h : here.Alike amount there) (x : ν) (position : Nat) :
    there.key x (position + amount) = (here.key x position).shift amount := by
  simp only [Run.key, Memo.Key.shift, h.quiet]

/-- What is added to the two traces does not matter. -/
lemma record (h : here.Alike amount there) (event other : Event ν) :
    (here.record event).Alike amount (there.record other) := by
  have hmemo := Grammar.memo_record here event
  have hmemo' := Grammar.memo_record there other
  have hheard := Run.Heard.record here event
  have hheard' := Run.Heard.record there other
  refine ⟨?_, ?_, ?_, fun key => ?_⟩
  · simpa [hheard.frontier, hheard'.frontier] using h.frontier
  · rw [hheard.quiet, hheard'.quiet, h.quiet]
  · rw [hmemo, hmemo', h.memoizes]
  · rw [remembered?, remembered?, hmemo, hmemo']
    exact h.remembered key

/-- The same failure, reported at a moved position, leaves the states alike. -/
lemma fail (h : here.Alike amount there) (position : Nat) (description : String) :
    (here.fail position description).Alike amount (there.fail (position + amount) description) := by
  unfold Run.fail
  rw [h.quiet]
  split
  · exact ⟨h.frontier.note position description, rfl, h.memoizes, h.remembered⟩
  · exact h

/-- The same result, remembered under the moved key, leaves the states alike. -/
lemma remember (h : here.Alike amount there) (key : Memo.Key ν) (ending : Option (Ending α)) :
    (here.remember key ending).Alike amount
      (there.remember (key.shift amount) (ending.map (Ending.shift amount))) := by
  refine ⟨h.frontier, h.quiet, by simp [Run.remember, h.memoizes], fun other => ?_⟩
  have hm := h.memoizes
  have hr := h.remembered other
  have hkey : other.shift amount = key.shift amount ↔ other = key := by
    obtain ⟨x, p, q⟩ := other
    obtain ⟨y, r, u⟩ := key
    simp [Memo.Key.shift]
  simp only [Run.remembered?, Run.remember] at hr ⊢
  cases hhere : here.memo with
  | none =>
    have hthere : there.memo = none := by simpa [hhere] using hm
    simp [hthere]
  | some memo =>
    rw [hhere] at hm
    obtain ⟨memo', hthere⟩ := Option.isSome_iff_exists.1 hm
    simp only [hhere, hthere, Option.bind_some, Option.map_some, Memo.find?_insert, hkey] at hr ⊢
    split
    · rfl
    · exact hr

end Run.Alike

/-! ## Putting actions together -/

variable {amount : Nat} {text : Text} {known : ν → Bool}

variable (amount text known) in
/-- Actions that do the same in states of the same work, the first of which is inside a text: the
result of the second one is that of the first one, moved along. -/
def Action.Alike (move : β → β) (here there : Action ν α β) : Prop :=
  ∀ run run', run.InText text known → run.Alike amount run' →
    (there run').1 = (here run).1.map move ∧ (here run).2.Alike amount (there run').2

namespace Action.Alike

variable {move : β → β} {carry : γ → γ}

/-- An outcome and the same one moved along are alike. -/
lemma pure {outcome other : Outcome α β} (h : other = outcome.map move) :
    Alike amount text known move (fun run : Run ν α => (outcome, run)) (fun run => (other, run)) :=
  fun _ _ _ hruns => ⟨h, hruns⟩

/-- Reports of the same thing at moved positions are alike. -/
lemma missing (position : Nat) (description : String) :
    Alike amount text known (Match.shift amount)
      (fun run : Run ν α => run.missing position description)
      (fun run => run.missing (position + amount) description) :=
  fun _ _ _ hruns => ⟨rfl, hruns.fail position description⟩

/-- The same test at moved positions passes or is reported alike. -/
lemma passOrMiss {test other : Bool} (ht : other = test) (position : Nat) {stop stop' : Nat}
    (hs : stop' = stop + amount) (scope : Scope) (description : String) :
    Alike amount text known (Match.shift amount)
      (Grammar.passOrMiss test position stop scope description : Action ν α (Match α))
      (Grammar.passOrMiss other (position + amount) stop' scope description) := by
  subst ht hs
  cases other with
  | false => exact missing position description
  | true => exact pure rfl

/-- What is done with outcomes that are moved along is alike if the actions are. -/
lemma handle {good : β → Prop} {here there : Action ν α β} {next other : Outcome α β → Action ν α γ}
    (hk : here.Keeps (Run.InText text known) good) (h : here.Alike amount text known move there)
    (hn : ∀ outcome, (∀ result, outcome = .matched result → good result) →
      (next outcome).Alike amount text known carry (other (outcome.map move))) :
    (here.handle next).Alike amount text known carry (there.handle other) := by
  intro run run' hrun hruns
  obtain ⟨hout, hafter⟩ := h run run' hrun hruns
  obtain ⟨hinside, hgood⟩ := hk run hrun
  have hnext := hn _ hgood _ _ hinside hafter
  rw [← hout] at hnext
  exact hnext

/-- Inside other rules, like actions are still alike. -/
lemma within {here there : Action ν α β} (h : here.Alike amount text known move there)
    (louder : Int) (deeper : Nat) :
    (here.within louder deeper).Alike amount text known move (there.within louder deeper) := by
  intro run run' hrun hruns
  obtain ⟨hout, hafter⟩ := h { run with quiet := run.quiet + louder, depth := run.depth + deeper }
    { run' with quiet := run'.quiet + louder, depth := run'.depth + deeper }
    ⟨hrun.frontier, hrun.remembered⟩
    ⟨hruns.frontier, by simp only [hruns.quiet], hruns.memoizes, hruns.remembered⟩
  refine ⟨hout, hafter.frontier, ?_, hafter.memoizes, hafter.remembered⟩
  simp only [Action.within, hafter.quiet]

/-- Like actions go on alike behind a result and the same one moved along. -/
lemma andThen {good : β → Prop} {here there : Action ν α β} {next other : β → Action ν α γ}
    (hk : here.Keeps (Run.InText text known) good) (h : here.Alike amount text known move there)
    (hn : ∀ result, good result →
      (next result).Alike amount text known carry (other (move result))) :
    Alike amount text known carry (fun run => (here run).andThen next)
      (fun run => (there run).andThen other) := by
  rw [andThen_eq_handle, andThen_eq_handle]
  refine handle hk h fun outcome hout => ?_
  cases outcome with
  | matched result => exact hn result (hout result rfl)
  | unmatched | stopped _ => exact pure rfl

/-- Where like actions do not match, like actions may be tried instead. -/
lemma onMismatch {good : β → Prop} {here there next other : Action ν α β}
    (hk : here.Keeps (Run.InText text known) good) (h : here.Alike amount text known move there)
    (hn : next.Alike amount text known move other) :
    (here.handle (Action.onMismatch next)).Alike amount text known move
      (there.handle (Action.onMismatch other)) := by
  refine handle hk h fun outcome _ => ?_
  cases outcome with
  | unmatched => exact hn
  | matched _ | stopped _ => exact pure rfl

end Action.Alike

namespace Matcher

variable {here there : Matcher ν α}

variable (amount text known) in
/-- Two matchers do the same with a rule, which is behind the beginning of the text if a character
was taken. -/
def Alike (here there : Matcher ν α) (moved : Bool) (rule : Rule ν α) : Prop :=
  ∀ position scope, position ≤ text.size → (moved = true → 0 < position) →
    Action.Alike amount text known (Match.shift amount) (here rule position scope)
      (there rule (position + amount) scope)

section

variable (hk : here.KeepsTo text known)

include hk

/-- Rows of sheltered rules do the same in the fragment as in place. Behind a part that takes a
character the beginning of the text is out of sight. -/
lemma Alike.applyParts :
    ∀ {rules : List (Rule ν α)} {moved : Bool},
      (∀ rule ∈ rules, ∀ moved, rule.sheltered known moved = true →
        here.Alike amount text known there moved rule) →
      Rule.sheltered.partsSheltered known rules moved = true →
      ∀ position scope, position ≤ text.size → (moved = true → 0 < position) →
        Action.Alike amount text known (Row.shift amount) (here.applyParts rules position scope)
          (there.applyParts rules (position + amount) scope)
  | [], _, _, _, _, _, _, _ => .pure rfl
  | rule :: rules, moved, h, hall, position, scope, hp, hmoved => by
    obtain ⟨hrule, hrules⟩ := Bool.and_eq_true_iff.1 hall
    refine .andThen (hk rule position scope hp)
      (h rule List.mem_cons_self moved hrule position scope hp hmoved) fun first hfirst => ?_
    have hahead : (moved || rule.advances known) = true → 0 < first.stop := by
      intro hor
      rcases Bool.or_eq_true_iff.1 hor with hm | hadvances
      · exact Nat.lt_of_lt_of_le (hmoved hm) hfirst.start_le
      · exact Nat.lt_of_le_of_lt (Nat.zero_le _) (hfirst.start_lt hadvances)
    exact .andThen (hk.applyParts rules first.stop first.scope hfirst.stop_le)
      (Alike.applyParts (fun rule hr => h rule (List.mem_cons_of_mem _ hr)) hrules first.stop
        first.scope hfirst.stop_le hahead) fun _ _ => .pure rfl

/-- Sheltered alternatives do the same in the fragment as in place. -/
lemma Alike.applyChoice :
    ∀ {rules : List (Rule ν α)} {moved : Bool},
      (∀ rule ∈ rules, ∀ moved, rule.sheltered known moved = true →
        here.Alike amount text known there moved rule) →
      Rule.sheltered.allSheltered known rules moved = true →
      ∀ position scope, position ≤ text.size → (moved = true → 0 < position) →
        Action.Alike amount text known (Match.shift amount) (here.applyChoice rules position scope)
          (there.applyChoice rules (position + amount) scope)
  | [], _, _, _, _, _, _, _ => .pure rfl
  | rule :: rules, moved, h, hall, position, scope, hp, hmoved => by
    obtain ⟨hrule, hrules⟩ := Bool.and_eq_true_iff.1 hall
    rw [applyChoice_cons, applyChoice_cons]
    exact .onMismatch (hk rule position scope hp)
      (h rule List.mem_cons_self moved hrule position scope hp hmoved)
      (Alike.applyChoice (fun rule hr => h rule (List.mem_cons_of_mem _ hr)) hrules position
        scope hp hmoved)

/-- The trips of a repetition of a sheltered rule do the same in the fragment as in place. -/
lemma Alike.applyTrips {rule : Rule ν α} {moved : Bool}
    (h : here.Alike amount text known there moved rule) (least : Int) (most : Option Int) :
    ∀ budget count position scope, position ≤ text.size → (moved = true → 0 < position) →
      Action.Alike amount text known (Trips.shift amount)
        (here.applyTrips rule least most budget count position scope)
        (there.applyTrips rule least most budget count (position + amount) scope)
  | 0, _, _, _, _, _ => .pure rfl
  | budget + 1, count, position, scope, hp, hmoved => by
    rw [applyTrips_succ, applyTrips_succ]
    split
    · exact .pure rfl
    · refine .handle (hk rule position scope hp) (h position scope hp hmoved) fun outcome hout => ?_
      cases outcome with
      | unmatched | stopped _ => exact .pure rfl
      | matched first =>
        have hfirst := hout first rfl
        have hiff : first.stop + amount = position + amount ↔ first.stop = position := by omega
        simp only [Outcome.map, Outcome.andThen, afterTrip, Match.shift, hiff]
        split
        · exact .pure rfl
        · exact .andThen
            (hk.applyTrips rule least most budget _ first.stop first.scope hfirst.stop_le)
            (Alike.applyTrips h least most budget _ first.stop first.scope hfirst.stop_le
              fun hm => Nat.lt_of_lt_of_le (hmoved hm) hfirst.start_le)
            fun _ _ => .pure rfl

end

end Matcher

/-! ## Applications -/

namespace Grammar

variable {g : Grammar ν α}

variable (g) in
/-- A named rule that ended in the same way is reported and remembered in the same way. -/
lemma alike_settle {here there : Run ν α} (h : here.Alike amount there) (key : Memo.Key ν)
    (ending : Option (Ending α)) :
    (g.settle key ending here).Alike amount
      (g.settle (key.shift amount) (ending.map (Ending.shift amount)) there) := by
  unfold settle
  cases ending with
  | some ending => exact (h.record _ _).remember key _
  | none =>
    cases herror : (g.define key.name).errorName with
    | none =>
      simp only [Memo.Key.shift, herror]
      exact (h.record _ _).remember key none
    | some description =>
      simp only [Memo.Key.shift, herror]
      exact ((h.fail key.position description).record _ _).remember key none

/-- The body of a named rule does the same in the fragment as in place, if its rule does. -/
lemma alike_applyBody {here there : Matcher ν α} {x : ν}
    (h : ∀ body, (g.define x).body = .ok body → here.Alike amount text known there false body)
    {position : Nat} (hp : position ≤ text.size) :
    Action.Alike amount text known (Match.shift amount) (g.applyBody here x position)
      (g.applyBody there x (position + amount)) := by
  rw [applyBody_eq, applyBody_eq]
  refine .within ?_ (g.hushing x) 1
  unfold bodyAction
  cases hbody : (g.define x).body with
  | error mistake => exact .pure rfl
  | ok body => exact h body hbody position [] hp nofun

/-- A named rule does the same in the fragment as in place, remembered results included. -/
lemma alike_applyNamed {here there : Matcher ν α} {x : ν}
    (h : ∀ body, (g.define x).body = .ok body → here.Alike amount text known there false body)
    {position : Nat} (hp : position ≤ text.size) (scope : Scope) :
    Action.Alike amount text known (Match.shift amount) (g.applyNamed here x position scope)
      (g.applyNamed there x (position + amount) scope) := by
  intro run run' hrun hruns
  -- The keys are the shift apart, so the result is remembered in both states or in neither.
  have hkey := hruns.key x position
  have hremembered := hruns.remembered (run.key x position)
  rw [← hkey] at hremembered
  cases hr : run.remembered? (run.key x position) with
  | some ending =>
    rw [hr] at hremembered
    simp only [applyNamed, hr, hremembered, Option.map_some]
    cases ending <;> exact ⟨rfl, hruns⟩
  | none =>
    rw [hr] at hremembered
    rw [g.applyNamed_of_forgotten here x position scope hr,
      g.applyNamed_of_forgotten there x (position + amount) scope hremembered]
    have hinside :=
      hrun.heard (.record run (.enter run.depth x position)) (memo_record run _) (by simp)
    obtain ⟨hout, hafter⟩ := alike_applyBody h hp _ _ hinside
      (hruns.record (.enter run.depth x position) (.enter run'.depth x (position + amount)))
    simp only [hout, hkey]
    cases (g.applyBody here x position (run.record (.enter run.depth x position))).1 with
    | matched result => exact ⟨rfl, g.alike_settle hafter _ (some result.toEnding)⟩
    | unmatched => exact ⟨rfl, g.alike_settle hafter _ none⟩
    | stopped cause => exact ⟨rfl, hafter⟩

/-- Rules that look for the start of a line at most behind the beginning of a text do the same in
the text and in place.

**Proof sketch.** Induction on the limit. Every form of rule asks the same of the text at its
position and at the one in place, and puts together what its inner rules do. -/
theorem alike_apply (hknown : g.Advancing known) (before : Text) :
    ∀ limit {rule : Rule ν α} {moved : Bool}, g.ShelteredFrom known rule →
      rule.sheltered known moved = true →
      (g.apply text limit).Alike before.size text known
      (g.apply (text.behind before) limit) moved rule
  | 0, _, _, _, _ => fun _ _ _ _ => .pure rfl
  | limit + 1, rule, moved, hfrom, hrule => by
    have hk : Matcher.KeepsTo text known (g.apply text limit) := keepsTo_apply hknown limit
    have ih := @alike_apply hknown before limit
    have hchild : ∀ {inner : Rule ν α}, inner ∈ rule.children → ∀ moved,
        inner.sheltered known moved = true →
        (g.apply text limit).Alike before.size text known (g.apply (text.behind before) limit) moved
          inner :=
      fun hmem moved hinner => ih (hfrom.of_leads (.child hmem)) hinner
    intro position scope hp hmoved
    cases rule with
    | named x =>
      cases limit with
      | zero => exact .pure rfl
      | succ limit =>
        exact alike_applyNamed (fun body hbody => alike_apply hknown before limit
          (hfrom.of_leads (.body hbody)) (hfrom x body .refl hbody)) hp scope
    | literal s =>
      rw [apply_literal_eq, apply_literal_eq]
      exact .passOrMiss (text.hasAt_behind before position _) position (Nat.add_right_comm ..)
        scope _
    | charSet set =>
      rw [apply_charSet_eq, apply_charSet_eq]
      exact .passOrMiss (by rw [Text.char?_behind]) position (Nat.add_right_comm ..) scope _
    | any =>
      rw [apply_any_eq, apply_any_eq]
      exact .passOrMiss (by rw [Text.char?_behind]) position (Nat.add_right_comm ..) scope _
    | lineStart =>
      -- The only form that looks back: what it sees is the same as long as this is not in front of
      -- the text.
      rw [apply_lineStart_eq, apply_lineStart_eq]
      refine .pure ?_
      rw [lineStartOutcome, lineStartOutcome,
        text.startsLine?_behind before position (hmoved hrule)]
      rcases text.startsLine? position with _ | _ | _ <;> rfl
    | sequence rules =>
      refine .andThen (hk.applyParts rules position scope hp)
        (Matcher.Alike.applyParts hk (fun rule hmem => hchild hmem) hrule position scope hp hmoved)
        fun row _ => ?_
      simp only [Row.shift]
      split <;> exact .pure rfl
    | choice rules =>
      exact Matcher.Alike.applyChoice hk (fun rule hmem => hchild hmem) hrule position scope
        hp hmoved
    | repetition rule least most =>
      have hbudget : (text.behind before).size - (position + before.size) + 1 =
          text.size - position + 1 := by rw [Text.size_behind, Nat.add_sub_add_right]
      have htrips : Action.Alike before.size text known (Trips.shift before.size)
          ((g.apply text limit).applyTrips rule least most (text.size - position + 1) 0
            position scope)
          ((g.apply (text.behind before) limit).applyTrips rule least most
            ((text.behind before).size - (position + before.size) + 1) 0 (position + before.size)
            scope) := by
        rw [hbudget]
        exact Matcher.Alike.applyTrips hk (hchild (List.mem_singleton_self _) moved hrule) least
          most _ 0 position scope hp hmoved
      refine .andThen (hk.applyTrips rule least most (text.size - position + 1) 0 position scope hp)
        htrips fun trips _ => ?_
      unfold Trips.shift
      split
      · exact .pure rfl
      · dsimp only
        split <;> exact .pure rfl
    | optional rule =>
      rw [apply_optional_eq, apply_optional_eq]
      exact .onMismatch (hk rule position scope hp)
        (hchild (List.mem_singleton_self _) moved hrule position scope hp hmoved) (.pure rfl)
    | lookahead negative rule =>
      rw [apply_lookahead_eq, apply_lookahead_eq]
      refine .handle ((hk rule position scope hp).within (Run.invariant_inText text known) 1 0)
        ((hchild (List.mem_singleton_self _) moved hrule position scope hp hmoved).within 1 0)
        fun outcome _ => .pure ?_
      cases outcome <;> cases negative <;> rfl
    | capture name rule =>
      refine .andThen (hk rule position scope hp)
        (hchild (List.mem_singleton_self _) moved hrule position scope hp hmoved) fun result _ => ?_
      refine .pure ?_
      simp only [Match.shift, Text.reading, Text.slice_behind]
      rfl
    | build builder rule =>
      refine .andThen (hk rule position scope hp)
        (hchild (List.mem_singleton_self _) moved hrule position scope hp hmoved) fun result _ => ?_
      simp only [Match.shift]
      split <;> exact .pure rfl
    | bind name rule =>
      refine .andThen (hk rule position scope hp)
        (hchild (List.mem_singleton_self _) moved hrule position scope hp hmoved) fun result _ => ?_
      refine .pure ?_
      simp only [Match.shift, Text.reading, Text.slice_behind]
      rfl
    | backref name =>
      rw [apply_backref_eq, apply_backref_eq]
      split
      · exact .pure rfl
      · exact .passOrMiss (text.hasAt_behind before position _) position (Nat.add_right_comm ..)
          scope _

/-- A rule means the same in a text as in place behind another one, in a fresh state each time: the
outcome is the same, with the end of a match moved along, and so is what was expected at the
furthest place at which something was missing, which is moved along too, if there is one. -/
def Portable (g : Grammar ν α) (rule : Rule ν α) : Prop :=
  ∀ (before text : String) (limit position : Nat) (scope : Scope) (memoize tracing : Bool),
    position ≤ text.length →
    let here := g.apply (.ofString text) limit rule position scope (.fresh memoize tracing)
    let there := g.apply (.ofString (before ++ text)) limit rule (before.length + position) scope
      (.fresh memoize tracing)
    there.1 = here.1.map (Match.shift before.length) ∧
    there.2.frontier.expected = here.2.frontier.expected ∧
    (here.2.frontier.expected ≠ [] →
      there.2.frontier.position = before.length + here.2.frontier.position)

/-- Rules that look for the start of a line at most behind the beginning of a text mean the same in
a fragment as in place. -/
theorem portable_of_sheltered (hknown : g.Advancing known) {rule : Rule ν α}
    (hfrom : g.ShelteredFrom known rule) (hrule : rule.sheltered known false = true) :
    g.Portable rule := by
  intro before text limit position scope memoize tracing hp here there
  obtain ⟨hout, hruns⟩ := alike_apply hknown (.ofString before) limit hfrom hrule position scope
    (by rwa [Text.size_ofString]) nofun _ _ (.fresh memoize tracing)
    (.fresh (Text.ofString before).size memoize tracing)
  rw [Text.behind_ofString, Text.size_ofString, Nat.add_comm position] at hout hruns
  have hfrontier : here.2.frontier.Alike before.length there.2.frontier := hruns.frontier
  refine ⟨hout, ?_⟩
  rcases hfrontier with hthere | ⟨hhere, hthere⟩
  · rw [hthere]
    exact ⟨rfl, fun _ => Nat.add_comm _ _⟩
  · rw [hhere, hthere]
    exact ⟨rfl, fun hne => absurd rfl hne⟩

end Grammar

end Packrat
