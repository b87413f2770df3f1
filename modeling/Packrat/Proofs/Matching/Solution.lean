import Packrat.Proofs.Matching.Plain
import Packrat.Proofs.Matching.Taking
set_option autoImplicit false
set_option relaxedAutoImplicit false

/-!
# Applications and what rules take

What the named rules of a grammar take may be given in any way, as long as it solves the
definitions: what a named rule takes has to be what its body takes. Two solutions can only differ
where every limit is exceeded, so an application within its limit does what any solution says.

A solution is told by the characters ahead alone. The one question about a text that these do not
answer is whether a line starts where they do, so it is put to the text.

## Main definitions

* `Packrat.Text.place` — the position at which some characters are left.
* `Packrat.Action.Obeys` — an action that has an outcome unless it exceeds its limit.
* `Packrat.Grammar.Solves` — what each named rule takes is what its body takes.

## Main results

* `Packrat.Grammar.obeys_apply` — an application within its limit does what a solution says.
* `Packrat.Grammar.Solves.yields` — what a named rule yields, by a solution.
-/

namespace Packrat

variable {ν α β γ δ ε : Type}

/-! ## Places in a text -/

namespace Text

variable (t : Text)

/-- The position at which so many characters are left. -/
def place (cs : List Char) : Nat := t.size - cs.length

/-- Whether a line starts where the given characters are left. -/
def lineStartsAt (cs : List Char) : Bool := (t.startsLine? (t.place cs)).getD false

/-- A match by positions. -/
def matchOf (taken : Taken α) : Match α := ⟨⟨t.place taken.rest, taken.value⟩, taken.scope⟩

variable {t} {cs rest : List Char}

/-- What is left of a text is no longer than the text. -/
lemma length_le_size (h : cs <:+ t.chars.toList) : cs.length ≤ t.size := by
  simpa [size] using h.length_le

/-- At its place, what is left of a text is ahead. -/
lemma drop_place (h : cs <:+ t.chars.toList) : t.chars.toList.drop (t.place cs) = cs := by
  have hlen : t.place cs = t.chars.toList.length - cs.length := by simp [place, size]
  rw [hlen]
  exact (List.suffix_iff_eq_drop.1 h).symm

/-- The character at the place of what is left is the first one left. -/
lemma char?_place (h : cs <:+ t.chars.toList) : t.char? (t.place cs) = cs.head? := by
  rw [char?, ← Array.getElem?_toList, ← List.head?_drop, drop_place h]

/-- Characters stand at the place of what is left if it begins with them. -/
lemma hasAt_place (h : cs <:+ t.chars.toList) (s : List Char) :
    t.hasAt s (t.place cs) = (cs.dropPrefix? s).isSome := by
  rw [Bool.eq_iff_iff, hasAt_iff, drop_place h, Option.isSome_iff_exists]
  simp only [List.dropPrefix?_eq_some_iff, beq_iff_eq, exists_eq_right]
  constructor
  · rintro ⟨-, rest, rfl⟩
    exact ⟨rest, rfl⟩
  · rintro ⟨rest, rfl⟩
    exact ⟨Nat.sub_le _ _, List.prefix_append _ _⟩

/-- What lies between two places. -/
lemma slice_place (h : cs <:+ t.chars.toList) (hr : rest <:+ cs) :
    t.slice (t.place cs) (t.place rest) = String.ofList (front cs rest) := by
  have hsize := length_le_size h
  have hlen := hr.length_le
  rw [slice, Array.toList_extract, List.extract_eq_take_drop, drop_place h]
  congr 2
  simp only [place]
  omega

/-- Places differ by the characters between them. -/
lemma place_add (h : cs <:+ t.chars.toList) {taken : List Char} (hc : cs = taken ++ rest) :
    t.place cs + taken.length = t.place rest := by
  have hsize := length_le_size h
  simp only [place, hc, List.length_append] at hsize ⊢
  omega

/-- Two ends of a text have the same place if they have the same length. -/
lemma place_eq_iff (h : cs <:+ t.chars.toList) (hr : rest <:+ cs) :
    t.place rest = t.place cs ↔ rest.length = cs.length := by
  have hsize := length_le_size h
  have hlen := hr.length_le
  simp only [place]
  omega

/-- There is always a way to tell whether a line starts at a place of the text. -/
lemma startsLine?_place (h : cs <:+ t.chars.toList) :
    t.startsLine? (t.place cs) = some (t.lineStartsAt cs) := by
  rw [lineStartsAt]
  have hsize := length_le_size h
  cases hp : t.place cs with
  | zero => rfl
  | succ before =>
    have hlt : before < t.chars.size := by
      simp only [place, size] at hp
      omega
    simp [startsLine?, char?, hlt]

end Text

/-! ## Applications do what a solution says -/

variable [DecidableEq ν]

/-- As long as nothing is remembered, the action has this outcome, unless it exceeds its limit. -/
def Action.Obeys (c : Action ν α β) (outcome : Outcome α β) : Prop :=
  ∀ run, run.memo = none →
    ((c run).1 = .stopped .tooDeep ∨ (c run).1 = outcome) ∧ (c run).2.memo = none

namespace Action.Obeys

/-- An outcome on its own is obeyed. -/
lemma pure (outcome : Outcome α β) :
    Action.Obeys (fun run : Run ν α => (outcome, run)) outcome :=
  fun _ hm => ⟨.inr rfl, hm⟩

/-- What is missing does not match. -/
lemma missing (position : Nat) (description : String) :
    Action.Obeys (fun run : Run ν α => run.missing position description) .unmatched :=
  fun run hm => ⟨.inr rfl, (Grammar.memo_fail run position description).trans hm⟩

/-- What is done with the outcome obeys, if it does so with the one that is given and passes on that
the limit is exceeded. -/
lemma handle {c : Action ν α β} {next : Outcome α β → Action ν α γ} {outcome : Outcome α β}
    {other : Outcome α γ} (h : c.Obeys outcome)
    (hdeep : (next (.stopped .tooDeep)).Obeys (.stopped .tooDeep))
    (hn : (next outcome).Obeys other) : (c.handle next).Obeys other := by
  intro run hm
  obtain ⟨ho, hm'⟩ := h run hm
  rw [Action.handle]
  rcases ho with ho | ho
  · obtain ⟨hdo, hdm⟩ := hdeep (c run).2 hm'
    rw [ho]
    exact ⟨.inl (hdo.elim id id), hdm⟩
  · rw [ho]
    exact hn (c run).2 hm'

/-- Counters do not matter for the outcome. -/
lemma within {c : Action ν α β} {outcome : Outcome α β} (h : c.Obeys outcome) (amount : Int)
    (deeper : Nat) : (c.within amount deeper).Obeys outcome :=
  fun _ hm => h _ hm

/-- Actions one behind the other obey outcomes one behind the other. -/
lemma andThen {c : Action ν α β} {next : β → Action ν α γ} {f : δ → β} {outcome : Outcome α δ}
    {then_ : δ → Outcome α γ} (h : c.Obeys (outcome.map f))
    (hn : ∀ result, outcome = .matched result → (next (f result)).Obeys (then_ result)) :
    Action.Obeys (fun run => (c run).andThen next) (outcome.andThen then_) := by
  rw [Action.andThen_eq_handle]
  refine h.handle (pure _) ?_
  cases outcome with
  | matched result => exact hn result rfl
  | unmatched => exact pure _
  | stopped cause => exact pure _

/-- An outcome in another form, worked out behind the first piece of work. -/
lemma andThen_map {c : Action ν α β} {next : β → Action ν α γ} {f : δ → β} {e : ε → γ}
    {outcome : Outcome α δ} {then_ : δ → Outcome α ε} (h : c.Obeys (outcome.map f))
    (hn : ∀ result, outcome = .matched result →
      (next (f result)).Obeys ((then_ result).map e)) :
    Action.Obeys (fun run => (c run).andThen next) ((outcome.andThen then_).map e) := by
  have hmap : (outcome.andThen then_).map e = outcome.andThen fun r => (then_ r).map e := by
    cases outcome <;> rfl
  rw [hmap]
  exact h.andThen hn

end Action.Obeys

namespace Text

/-- The pieces of a row by positions. -/
def rowOf (t : Text) (row : TakenRow α) : Row α := ⟨row.values, t.place row.rest, row.scope⟩

/-- The pieces of a repetition by positions. -/
def tripsOf (t : Text) (trips : TakenTrips α) : Trips α := ⟨t.rowOf trips.toTakenRow, trips.count⟩

end Text

namespace Matcher

variable {g : Grammar ν α} {t : Text} {env : ν → List Char → Option (Piece α)} {m : Matcher ν α}

variable (g t env) in
/-- The matcher takes what rules take, at every place of the text. -/
def Obeys (m : Matcher ν α) : Prop :=
  ∀ (rule : Rule ν α) (scope : Scope) (cs : List Char), cs <:+ t.chars.toList →
    Action.Obeys (m rule (t.place cs) scope)
      ((rule.take g t.lineStartsAt env scope cs).map t.matchOf)

section

variable (henv : ∀ x cs piece, env x cs = some piece → piece.rest <:+ cs)

include henv

/-- A row of rules takes what its parts take, one behind the other. -/
lemma Obeys.applyParts (h : m.Obeys g t env) :
    ∀ (rules : List (Rule ν α)) (scope : Scope) (cs : List Char), cs <:+ t.chars.toList →
      Action.Obeys (m.applyParts rules (t.place cs) scope)
        ((Rule.take.takeParts g t.lineStartsAt env rules scope cs).map t.rowOf)
  | [], _, _, _ => .pure _
  | rule :: rules, scope, cs, hcs => by
    refine (h rule scope cs hcs).andThen_map fun first hfirst => ?_
    have hrest := (Rule.shortens_take g t.lineStartsAt henv rule scope cs first hfirst).trans hcs
    exact (Obeys.applyParts h rules first.scope first.rest hrest).andThen_map fun others _ =>
      .pure _

omit henv in
/-- A choice takes what the first alternative takes that matches. -/
lemma Obeys.applyChoice (h : m.Obeys g t env) :
    ∀ (rules : List (Rule ν α)) (scope : Scope) (cs : List Char), cs <:+ t.chars.toList →
      Action.Obeys (m.applyChoice rules (t.place cs) scope)
        ((Rule.take.takeChoice g t.lineStartsAt env rules scope cs).map t.matchOf)
  | [], _, _, _ => .pure _
  | rule :: rules, scope, cs, hcs => by
    rw [applyChoice_cons, Rule.take.takeChoice]
    refine (h rule scope cs hcs).handle (.pure _) ?_
    cases rule.take g t.lineStartsAt env scope cs with
    | unmatched => exact Obeys.applyChoice h rules scope cs hcs
    | matched taken => exact .pure _
    | stopped cause => exact .pure _

/-- A repetition makes the trips that its rule takes. -/
lemma Obeys.applyTrips (h : m.Obeys g t env) (rule : Rule ν α) (least : Int) (most : Option Int) :
    ∀ (budget : Nat) (count : Int) (scope : Scope) (cs : List Char), cs <:+ t.chars.toList →
      Action.Obeys (m.applyTrips rule least most budget count (t.place cs) scope)
        ((takeTrips (rule.take g t.lineStartsAt env) least most budget count scope cs).map
          t.tripsOf)
  | 0, _, _, _, _ => .pure _
  | budget + 1, count, scope, cs, hcs => by
    rw [applyTrips_succ, takeTrips]
    split
    · exact .pure _
    · refine (h rule scope cs hcs).handle (.pure _) ?_
      cases hout : rule.take g t.lineStartsAt env scope cs with
      | unmatched => exact .pure _
      | stopped cause => exact .pure _
      | matched first =>
        have hrest := Rule.shortens_take g t.lineStartsAt henv rule scope cs first hout
        change Action.Obeys (m.afterTrip rule least most budget count (t.place cs) scope
          (.matched (t.matchOf first))) _
        have hiff : (t.matchOf first).stop = t.place cs ↔ first.rest.length = cs.length :=
          Text.place_eq_iff hcs hrest
        simp only [afterTrip, hiff]
        split
        · exact .pure _
        · exact (Obeys.applyTrips h rule least most budget _ first.scope first.rest
            (hrest.trans hcs)).andThen_map fun others _ => .pure _

end

end Matcher

namespace Grammar

/-- What each named rule takes, with nothing bound, is what its body takes, at every place of the
text. -/
structure Solves (g : Grammar ν α) (t : Text) (env : ν → List Char → Option (Piece α)) : Prop where
  suffix : ∀ x cs piece, env x cs = some piece → piece.rest <:+ cs
  body : ∀ x cs, cs <:+ t.chars.toList → ∃ rule, (g.define x).body = .ok rule ∧
    (rule.take g t.lineStartsAt env [] cs).map Taken.toPiece = (env x cs).elim .unmatched .matched

variable {g : Grammar ν α} {t : Text} {env : ν → List Char → Option (Piece α)}

/-- A test obeys the reader that it is passed with. -/
lemma obeys_passOrMiss {test : Bool} {cs : List Char} {stop : Nat} {left : Option (List Char)}
    (htest : test = left.isSome) (hstop : ∀ rest, left = some rest → t.place rest = stop)
    (scope : Scope) (description : String) :
    Action.Obeys (passOrMiss test (t.place cs) stop scope description : Action ν α (Match α))
      ((takeSilently scope left).map t.matchOf) := by
  subst htest
  cases left with
  | none => exact .missing _ _
  | some rest =>
    obtain rfl := hstop rest rfl
    exact .pure _

/-- Characters in a row are taken where what is left begins with them. -/
lemma obeys_hasAt {cs : List Char} (hcs : cs <:+ t.chars.toList) (s : String) (scope : Scope) :
    Action.Obeys (passOrMiss (t.hasAt s.toList (t.place cs)) (t.place cs)
        (t.place cs + s.length) scope (quote s) : Action ν α (Match α))
      ((takeSilently scope (cs.dropPrefix? s.toList)).map t.matchOf) := by
  refine obeys_passOrMiss (t.hasAt_place hcs _) (fun rest hr => ?_) _ _
  obtain ⟨front, rfl, hf⟩ := List.dropPrefix?_eq_some_iff.1 hr
  obtain rfl := eq_of_beq hf
  rw [← String.length_toList]
  exact (Text.place_add hcs rfl).symm

/-- One character is taken where the first one left passes the test. -/
lemma obeys_char {cs : List Char} (hcs : cs <:+ t.chars.toList) (test : Char → Bool)
    (scope : Scope) (description : String) :
    Action.Obeys (passOrMiss ((t.char? (t.place cs)).any test) (t.place cs)
        (t.place cs + 1) scope description : Action ν α (Match α))
      ((takeSilently scope (dropChar? test cs)).map t.matchOf) := by
  refine obeys_passOrMiss ?_ (fun rest hr => ?_) _ _
  · rw [Text.char?_place hcs]
    cases cs with
    | nil => rfl
    | cons c cs => cases h : test c <;> simp [dropChar?, h]
  · cases cs with
    | nil => cases hr
    | cons c cs =>
      simp only [dropChar?, Option.ite_none_right_eq_some] at hr
      obtain ⟨-, ⟨⟩⟩ := hr
      have hplace : t.place (c :: rest) + [c].length = t.place rest := Text.place_add hcs rfl
      exact hplace.symm

/-- The body of a named rule takes what the solution says of the named rule. -/
lemma obeys_applyBody {m : Matcher ν α} (hs : g.Solves t env) (h : m.Obeys g t env) (x : ν)
    {cs : List Char} (hcs : cs <:+ t.chars.toList) :
    ∃ taken : Outcome α (Taken α),
      taken.map Taken.toPiece = (env x cs).elim .unmatched .matched ∧
      Action.Obeys (g.applyBody m x (t.place cs)) (taken.map t.matchOf) := by
  obtain ⟨rule, hrule, htake⟩ := hs.body x cs hcs
  refine ⟨_, htake, ?_⟩
  rw [applyBody_eq]
  refine Action.Obeys.within ?_ (g.hushing x) 1
  simp only [bodyAction, hrule]
  exact h rule [] cs hcs

/-- A named rule does what a solution says if its body does what the rule of the body takes. -/
lemma obeys_applyNamed {m : Matcher ν α} (hs : g.Solves t env) (h : m.Obeys g t env) (x : ν)
    (scope : Scope) {cs : List Char} (hcs : cs <:+ t.chars.toList) :
    Action.Obeys (g.applyNamed m x (t.place cs) scope)
      (((Rule.named x).take g t.lineStartsAt env scope cs).map t.matchOf) := by
  obtain ⟨taken, htaken, hobeys⟩ := obeys_applyBody hs h x hcs
  have hout : inScope scope (taken.map t.matchOf) =
      ((Rule.named x).take g t.lineStartsAt env scope cs).map t.matchOf := by
    rw [Rule.take]
    cases henv : env x cs with
    | none =>
      rw [henv] at htaken
      cases taken <;> cases htaken
      rfl
    | some piece =>
      rw [henv] at htaken
      cases taken with
      | matched result =>
        obtain rfl : result.toPiece = piece := Outcome.matched.inj htaken
        rfl
      | unmatched => cases htaken
      | stopped cause => cases htaken
  intro run hm
  obtain ⟨ho, hm'⟩ := hobeys (run.record (.enter run.depth x (t.place cs)))
    ((memo_record _ _).trans hm)
  rw [g.applyNamed_of_forgotten m x (t.place cs) scope (by simp [Run.remembered?, hm])]
  refine ⟨ho.imp (fun ho => ?_) (fun ho => ?_), ?_⟩
  · simp only [ho, inScope]
  · simp only [ho, hout]
  · simp only [memo_settleOutcome, hm']
    rcases (g.applyBody m x _ _).1 <;> rfl

/-- Without remembered results, an application within its limit does what a solution says.

**Proof sketch.** Induction on the limit. Every form of rule is put together from applications under
the limit below, in the way in which what it takes is put together from what its parts take. -/
theorem obeys_apply (hs : g.Solves t env) : ∀ limit, Matcher.Obeys g t env (g.apply t limit)
  | 0 => fun _ _ _ _ _ hm => ⟨.inl rfl, hm⟩
  | limit + 1 => by
    have ih := obeys_apply hs limit
    have hsuf := hs.suffix
    intro rule scope cs hcs
    cases rule with
    | literal s =>
      rw [apply_literal_eq]
      exact obeys_hasAt hcs s scope
    | charSet set =>
      rw [apply_charSet_eq]
      exact obeys_char hcs set.contains scope _
    | any =>
      rw [apply_any_eq]
      have hany : (t.char? (t.place cs)).isSome = (t.char? (t.place cs)).any fun _ => true := by
        cases t.char? (t.place cs) <;> rfl
      rw [hany]
      exact obeys_char hcs (fun _ => true) scope _
    | lineStart =>
      rw [apply_lineStart_eq, lineStartOutcome, Text.startsLine?_place hcs, Rule.take]
      cases t.lineStartsAt cs <;> exact .pure _
    | sequence rules =>
      refine (Matcher.Obeys.applyParts hsuf ih rules scope cs hcs).andThen_map fun row _ => ?_
      simp only [Text.rowOf]
      cases mergeValues row.values <;> exact .pure _
    | choice rules => exact Matcher.Obeys.applyChoice ih rules scope cs hcs
    | repetition rule least most =>
      have hbudget : t.size - t.place cs + 1 = cs.length + 1 := by
        have := Text.length_le_size hcs
        simp only [Text.place]
        omega
      have htrips := Matcher.Obeys.applyTrips hsuf ih rule least most (cs.length + 1) 0 scope cs hcs
      rw [← hbudget] at htrips
      refine Action.Obeys.andThen_map (by rw [← hbudget]; exact htrips) fun trips _ => ?_
      by_cases hleast : trips.count < least
      · simp only [Text.tripsOf, Text.rowOf, hleast, if_true]
        exact .pure _
      · simp only [Text.tripsOf, Text.rowOf, hleast, if_false]
        cases g.repetitionValue rule trips.values <;> exact .pure _
    | optional rule =>
      rw [apply_optional_eq, Rule.take]
      refine (ih rule scope cs hcs).handle (.pure _) ?_
      cases rule.take g t.lineStartsAt env scope cs <;> exact .pure _
    | lookahead negative rule =>
      rw [apply_lookahead_eq, Rule.take]
      refine ((ih rule scope cs hcs).within 1 0).handle (.pure _) ?_
      cases rule.take g t.lineStartsAt env scope cs <;> cases negative <;> exact .pure _
    | capture name rule =>
      refine (ih rule scope cs hcs).andThen_map fun taken htaken => ?_
      have hrest : taken.rest <:+ cs :=
        Rule.shortens_take g t.lineStartsAt hsuf rule scope cs taken htaken
      simp only [← Text.slice_place hcs hrest]
      exact .pure _
    | build builder rule =>
      refine (ih rule scope cs hcs).andThen_map fun taken _ => ?_
      simp only [Text.matchOf]
      cases builder.make (.ofProduct taken.value) <;> exact .pure _
    | bind name rule =>
      refine (ih rule scope cs hcs).andThen_map fun taken htaken => ?_
      have hrest : taken.rest <:+ cs :=
        Rule.shortens_take g t.lineStartsAt hsuf rule scope cs taken htaken
      simp only [← Text.slice_place hcs hrest]
      exact .pure _
    | backref name =>
      rw [apply_backref_eq, Rule.take]
      cases scope.lookup name with
      | none => exact .pure _
      | some bound => exact obeys_hasAt hcs bound scope
    | named x =>
      cases limit with
      | zero => exact fun _ hm => ⟨.inl rfl, hm⟩
      | succ limit => exact obeys_applyNamed hs (obeys_apply hs limit) x scope hcs

end Grammar

end Packrat
