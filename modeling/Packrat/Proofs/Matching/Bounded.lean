import Packrat.Proofs.Matching.Limit
import Packrat.Proofs.Matching.Nesting
import Packrat.Proofs.Matching.Solution
set_option autoImplicit false
set_option relaxedAutoImplicit false

/-!
# Rules that are nested as deep as the text is long

Where a named rule leads back to itself only behind a character, it is nested in itself at most once
for each character. That it does so can be told from the grammar alone: between two such rules the
nesting that the grammar shows is bounded, and a character is passed before the second one. A limit
of that bound for each character, and once more for the end, is never exceeded.

A remembered result could be wrong and send a rule back to where it was before, so nothing is
remembered here; with remembered results the same is done as without them.

## Main definitions

* `Packrat.Rule.moves` — whether the form of a rule shows that it takes a character.
* `Packrat.Grammar.bounded` — whether a limit is enough up to the next rule that leads back to
  itself.
* `Packrat.Action.Ends` — an action that does not exceed its limit as long as nothing is remembered.

## Main results

* `Packrat.Grammar.ends_apply` — what is bounded does not exceed a limit that grows with the text.
* `Packrat.Grammar.Solves.ends` — the same for a whole text.
-/

namespace Packrat

variable {ν α β γ δ : Type}

/-- Whether the form of a rule shows that it takes a character wherever it matches. -/
def Rule.moves : Rule ν α → Bool
  | .literal s => decide (s ≠ "")
  | .charSet _ | .any => true
  | _ => false

/-- Whether all rules of a row pass a check, each with the knowledge whether a character was taken
by then. -/
def Rule.allParts (check : Bool → Rule ν α → Bool) : Bool → List (Rule ν α) → Bool
  | _, [] => true
  | moved, rule :: rules => check moved rule && allParts check (moved || rule.moves) rules

/-- Whether a limit is enough for a rule and all that is inside it, up to the named rules that may
lead back to themselves. These have to stand behind a character, which was taken by then if the rule
has `moved`. -/
def Grammar.bounded [DecidableEq ν] (g : Grammar ν α) (loops : ν → Bool) :
    Nat → Bool → Rule ν α → Bool
  | 0, _, _ => false
  | limit + 1, moved, rule =>
    match rule with
    | .literal _ | .charSet _ | .any | .lineStart | .backref _ => true
    | .sequence rules => Rule.allParts (g.bounded loops limit) moved rules
    | .choice rules => rules.all (g.bounded loops limit moved)
    | .repetition rule _ _ | .optional rule | .lookahead _ rule | .capture _ rule | .build _ rule
    | .bind _ rule => g.bounded loops limit moved rule
    | .named x =>
      (moved && loops x) ||
        match limit with
        | 0 => false
        | limit + 1 =>
          match (g.define x).body with
          | .error _ => true
          | .ok body => g.bounded loops limit moved body

/-! ## Rules that take a character -/

/-- What was taken silently is what the reader left over. -/
lemma takeSilently_eq_matched {scope : Scope} {left : Option (List Char)} {taken : Taken α}
    (h : takeSilently scope left = .matched taken) : left = some taken.rest := by
  cases left with
  | none => cases h
  | some rest =>
    cases h
    rfl

variable [DecidableEq ν]

/-- A rule whose form shows that it takes a character leaves fewer of them. -/
lemma Rule.length_lt_of_moves {g : Grammar ν α} {lines : List Char → Bool}
    {env : ν → List Char → Option (Piece α)} {rule : Rule ν α} {scope : Scope} {cs : List Char}
    {taken : Taken α} (hmoves : rule.moves = true)
    (h : rule.take g lines env scope cs = .matched taken) : taken.rest.length < cs.length := by
  have hchar : ∀ {test : Char → Bool}, dropChar? test cs = some taken.rest →
      taken.rest.length < cs.length := by
    intro test hdrop
    cases cs with
    | nil => cases hdrop
    | cons c cs =>
      simp only [dropChar?, Option.ite_none_right_eq_some, Option.some.injEq] at hdrop
      rw [← hdrop.2]
      exact Nat.lt_succ_self _
  cases rule with
  | literal s =>
    have hdrop := takeSilently_eq_matched h
    obtain ⟨front, hcs, hfront⟩ := List.dropPrefix?_eq_some_iff.1 hdrop
    have hne : s.toList ≠ [] := by simpa [moves] using hmoves
    have hpos : 0 < front.length := by
      rw [eq_of_beq hfront]
      exact List.length_pos_iff.2 hne
    rw [hcs, List.length_append]
    omega
  | charSet set => exact hchar (takeSilently_eq_matched h)
  | any => exact hchar (takeSilently_eq_matched h)
  | lineStart | sequence | choice | repetition | optional | lookahead | capture | build | bind
  | backref | named => cases hmoves

/-! ## Actions within their limit -/

/-- As long as nothing is remembered, the action does not exceed its limit. -/
def Action.Ends (c : Action ν α β) : Prop :=
  ∀ run, run.memo = none → (c run).1 ≠ .stopped .tooDeep

namespace Action.Ends

/-- An outcome that does not exceed the limit ends. -/
lemma pure {outcome : Outcome α β} (h : outcome ≠ .stopped .tooDeep) :
    Action.Ends (fun run : Run ν α => (outcome, run)) := fun _ _ => h

/-- An action that never exceeds its limit does not do so either where nothing is remembered. -/
lemma of_shallow {c : Action ν α β} (h : c.Shallow) : c.Ends := fun run _ => h run

/-- An action ends if what is done with its known outcome does. -/
lemma handle {c : Action ν α β} {next : Outcome α β → Action ν α γ} {outcome : Outcome α β}
    (ho : c.Obeys outcome) (h : c.Ends)
    (hn : outcome ≠ .stopped .tooDeep → (next outcome).Ends) : (c.handle next).Ends := by
  intro run hm
  obtain ⟨hout, hm'⟩ := ho run hm
  have hdeep := h run hm
  have houtcome := hout.resolve_left hdeep
  rw [Action.handle, houtcome]
  exact hn (houtcome ▸ hdeep) _ hm'

/-- Counters do not matter for whether an action ends. -/
lemma within {c : Action ν α β} (h : c.Ends) (amount : Int) (deeper : Nat) :
    (c.within amount deeper).Ends := fun _ hm => h _ hm

/-- An action ends if it goes on, behind its known result, with one that ends. -/
lemma andThen {c : Action ν α β} {next : β → Action ν α γ} {f : δ → β} {outcome : Outcome α δ}
    (ho : c.Obeys (outcome.map f)) (h : c.Ends)
    (hn : ∀ result, outcome = .matched result → (next (f result)).Ends) :
    Action.Ends (fun run => (c run).andThen next) := by
  rw [Action.andThen_eq_handle]
  refine handle ho h fun hdeep => ?_
  cases outcome with
  | matched result => exact hn result rfl
  | unmatched => exact pure (by simp)
  | stopped cause => exact pure fun h => hdeep (by cases h; rfl)

end Action.Ends

/-! ## Putting rules together -/

/-- The characters are left of the text. They are so many at most, and less if one was taken. -/
def Text.Within (t : Text) (n : Nat) (moved : Bool) (cs : List Char) : Prop :=
  cs <:+ t.chars.toList ∧ cs.length + moved.toNat ≤ n

/-- What is left behind more characters is within the same bound. -/
lemma Text.Within.suffix {t : Text} {n : Nat} {moved : Bool} {cs rest : List Char}
    (h : t.Within n moved cs) (hr : rest <:+ cs) : t.Within n moved rest :=
  ⟨hr.trans h.1, (Nat.add_le_add_right hr.length_le _).trans h.2⟩

namespace Matcher

variable {g : Grammar ν α} {t : Text} {env : ν → List Char → Option (Piece α)} {m : Matcher ν α}
  {n : Nat}

variable (t n) in
/-- The matcher does not exceed its limit at the rule where so many characters are left at most. -/
def Ends (m : Matcher ν α) (moved : Bool) (rule : Rule ν α) : Prop :=
  ∀ scope cs, t.Within n moved cs → Action.Ends (m rule (t.place cs) scope)

section

variable (henv : ∀ x cs piece, env x cs = some piece → piece.rest <:+ cs)

include henv

/-- A row ends if its parts do, where each of them may count on the characters taken in front of it.
-/
lemma Ends.applyParts {check : Bool → Rule ν α → Bool} (ho : m.Obeys g t env)
    (h : ∀ moved rule, check moved rule = true → m.Ends t n moved rule) :
    ∀ {rules : List (Rule ν α)} {moved : Bool}, Rule.allParts check moved rules = true →
      ∀ scope cs, t.Within n moved cs → Action.Ends (m.applyParts rules (t.place cs) scope)
  | [], _, _, _, _, _ => .pure (by simp)
  | rule :: rules, moved, hall, scope, cs, hcs => by
    rw [Rule.allParts, Bool.and_eq_true] at hall
    refine Action.Ends.andThen (ho rule scope cs hcs.1) (h moved rule hall.1 scope cs hcs)
      fun first hfirst => ?_
    have hrest := Rule.shortens_take g t.lineStartsAt henv rule scope cs first hfirst
    have hwithin : t.Within n (moved || rule.moves) first.rest := by
      cases hmoves : rule.moves with
      | false => simpa using hcs.suffix hrest
      | true =>
        have hlt := Rule.length_lt_of_moves hmoves hfirst
        have hle := hcs.2
        refine ⟨hrest.trans hcs.1, ?_⟩
        rw [Bool.or_true, Bool.toNat_true]
        omega
    have hothers := Obeys.applyParts henv ho rules first.scope first.rest hwithin.1
    exact Action.Ends.andThen hothers
      (Ends.applyParts ho h hall.2 first.scope first.rest hwithin) fun _ _ => .pure (by simp)

omit henv in
/-- A choice ends if all alternatives do. -/
lemma Ends.applyChoice {moved : Bool} (ho : m.Obeys g t env) :
    ∀ {rules : List (Rule ν α)}, (∀ rule ∈ rules, m.Ends t n moved rule) →
      ∀ scope cs, t.Within n moved cs → Action.Ends (m.applyChoice rules (t.place cs) scope)
  | [], _, _, _, _ => .pure (by simp)
  | rule :: rules, h, scope, cs, hcs => by
    rw [applyChoice_cons]
    refine Action.Ends.handle (ho rule scope cs hcs.1) (h rule (by simp) scope cs hcs)
      fun hdeep => ?_
    cases hout : (rule.take g t.lineStartsAt env scope cs).map t.matchOf with
    | unmatched => exact Ends.applyChoice ho (fun rule hr => h rule (by simp [hr])) scope cs hcs
    | matched first => exact .pure (by simp)
    | stopped cause => exact .pure (hout ▸ hdeep)

/-- The trips of a repetition end if its rule does, as long as they take characters. -/
lemma Ends.applyTrips {moved : Bool} {rule : Rule ν α} (ho : m.Obeys g t env)
    (h : m.Ends t n moved rule) (least : Int) (most : Option Int) :
    ∀ budget count scope cs, t.Within n moved cs →
      Action.Ends (m.applyTrips rule least most budget count (t.place cs) scope)
  | 0, _, _, _, _ => .pure (by simp)
  | budget + 1, count, scope, cs, hcs => by
    rw [applyTrips_succ]
    split
    · exact .pure (by simp)
    · refine Action.Ends.handle (ho rule scope cs hcs.1) (h scope cs hcs) fun hdeep => ?_
      cases hout : rule.take g t.lineStartsAt env scope cs with
      | unmatched => exact .pure (by simp)
      | stopped cause =>
        rw [hout] at hdeep
        exact .pure fun h => hdeep (by cases h; rfl)
      | matched first =>
        have hrest := hcs.suffix (Rule.shortens_take g t.lineStartsAt henv rule scope cs first hout)
        change Action.Ends (m.afterTrip rule least most budget count (t.place cs) scope
          (.matched (t.matchOf first)))
        simp only [afterTrip]
        split
        · exact .pure (by simp)
        · exact Action.Ends.andThen
            (Obeys.applyTrips henv ho rule least most budget _ first.scope first.rest hrest.1)
            (Ends.applyTrips ho h least most budget _ first.scope first.rest hrest)
            fun _ _ => .pure (by simp)

end

end Matcher

namespace Grammar

variable {g : Grammar ν α} {t : Text} {env : ν → List Char → Option (Piece α)}

/-- A named rule does not exceed the limit where its body does not. -/
lemma ends_applyNamed {m : Matcher ν α} {x : ν} {position : Nat}
    (h : ∀ body, (g.define x).body = .ok body → Action.Ends (m body position [])) (scope : Scope) :
    Action.Ends (g.applyNamed m x position scope) := by
  have hbody : Action.Ends (g.applyBody m x position) := by
    rw [applyBody_eq]
    refine Action.Ends.within ?_ (g.hushing x) 1
    cases hrule : (g.define x).body with
    | error mistake =>
      simp only [bodyAction, hrule]
      exact .pure (by simp)
    | ok body =>
      simp only [bodyAction, hrule]
      exact h body hrule
  intro run hm
  rw [g.applyNamed_of_forgotten m x position scope (by simp [Run.remembered?, hm])]
  have hends := hbody (run.record (.enter run.depth x position)) ((memo_record _ _).trans hm)
  cases hout : (g.applyBody m x position (run.record (.enter run.depth x position))).1 with
  | matched result => simp [hout, inScope]
  | unmatched => simp [hout, inScope]
  | stopped cause =>
    rw [hout] at hends
    simp only [hout, inScope]
    exact fun hs => hends (by cases hs; rfl)

/-- What is bounded does not exceed a limit that is larger by a bound for each character that is
left, if the rules that lead back to themselves do not exceed a limit of that bound for each
character where fewer are left.

**Proof sketch.** Induction on the limit of what is bounded. Where a rule leads back to itself a
character was taken, so that the assumption applies. -/
theorem ends_apply (hs : g.Solves t env) {loops : ν → Bool} {bound n : Nat}
    (hloops : ∀ x, loops x = true → (g.apply t (bound * n)).Ends t n true (.named x)) :
    ∀ limit moved rule, g.bounded loops limit moved rule = true →
      (g.apply t (limit + bound * n)).Ends t n moved rule
  | 0, _, _, h => by cases h
  | limit + 1, moved, rule, h => by
    intro scope cs hcs
    have ho := obeys_apply hs (limit + bound * n)
    have hsuf := hs.suffix
    rw [Nat.add_right_comm]
    cases rule with
    | literal s =>
      rw [apply_literal_eq]
      exact .of_shallow (shallow_passOrMiss _ _ _ _ _)
    | charSet set =>
      rw [apply_charSet_eq]
      exact .of_shallow (shallow_passOrMiss _ _ _ _ _)
    | any =>
      rw [apply_any_eq]
      exact .of_shallow (shallow_passOrMiss _ _ _ _ _)
    | lineStart =>
      rw [apply_lineStart_eq, lineStartOutcome, Text.startsLine?_place hcs.1]
      cases t.lineStartsAt cs <;> exact .pure (by simp)
    | sequence rules =>
      have hparts := Matcher.Ends.applyParts hsuf ho
        (fun moved rule => ends_apply hs hloops limit moved rule) h scope cs hcs
      refine Action.Ends.andThen (Matcher.Obeys.applyParts hsuf ho rules scope cs hcs.1) hparts
        fun row _ => ?_
      simp only [Text.rowOf]
      cases mergeValues row.values <;> exact .pure (by simp)
    | choice rules =>
      have hall := List.all_eq_true.1 h
      exact Matcher.Ends.applyChoice ho
        (fun rule hr => ends_apply hs hloops limit moved rule (hall rule hr)) scope cs hcs
    | repetition rule least most =>
      have hrule := ends_apply hs hloops limit moved rule h
      refine Action.Ends.andThen
        (Matcher.Obeys.applyTrips hsuf ho rule least most _ 0 scope cs hcs.1)
        (Matcher.Ends.applyTrips hsuf ho hrule least most _ 0 scope cs hcs) fun trips _ => ?_
      split
      · exact .pure (by simp)
      · cases g.repetitionValue rule (t.tripsOf trips).values <;> exact .pure (by simp)
    | optional rule =>
      rw [apply_optional_eq]
      refine Action.Ends.handle (ho rule scope cs hcs.1)
        (ends_apply hs hloops limit moved rule h scope cs hcs) fun hdeep => ?_
      cases hout : (rule.take g t.lineStartsAt env scope cs).map t.matchOf with
      | unmatched => exact .pure (by simp)
      | matched first => exact .pure (by simp)
      | stopped cause => exact .pure (hout ▸ hdeep)
    | lookahead negative rule =>
      rw [apply_lookahead_eq]
      exact Action.Ends.handle ((ho rule scope cs hcs.1).within 1 0)
        ((ends_apply hs hloops limit moved rule h scope cs hcs).within 1 0)
        fun hdeep => .pure (afterLook_ne_tooDeep hdeep _ _ _)
    | capture name rule =>
      exact Action.Ends.andThen (ho rule scope cs hcs.1)
        (ends_apply hs hloops limit moved rule h scope cs hcs) fun _ _ => .pure (by simp)
    | build builder rule =>
      refine Action.Ends.andThen (ho rule scope cs hcs.1)
        (ends_apply hs hloops limit moved rule h scope cs hcs) fun taken _ => ?_
      simp only [Text.matchOf]
      cases builder.make (.ofProduct taken.value) <;> exact .pure (by simp)
    | bind name rule =>
      exact Action.Ends.andThen (ho rule scope cs hcs.1)
        (ends_apply hs hloops limit moved rule h scope cs hcs) fun _ _ => .pure (by simp)
    | backref name =>
      rw [apply_backref_eq]
      cases scope.lookup name with
      | none => exact .pure (by simp)
      | some bound => exact .of_shallow (shallow_passOrMiss _ _ _ _ _)
    | named x =>
      by_cases hback : moved = true ∧ loops x = true
      · -- the limit is larger than the one that the rule does not exceed
        obtain ⟨rfl, hx⟩ := hback
        intro run hm
        have hdeep := hloops x hx scope cs hcs run hm
        rwa [g.apply_of_le (by omega) hdeep]
      · rw [← Bool.and_eq_true, Bool.not_eq_true] at hback
        cases limit with
        | zero => simp [bounded, hback] at h
        | succ limit =>
          simp only [bounded, hback, Bool.false_or] at h
          rw [Nat.add_right_comm limit]
          change Action.Ends (g.applyNamed (g.apply t (limit + bound * n)) x (t.place cs) scope)
          refine ends_applyNamed (fun body hbody => ?_) scope
          simp only [hbody] at h
          exact ends_apply hs hloops limit moved body h [] cs hcs

/-- A rule that leads back to itself does not exceed a limit of its bound for each character that is
left.

**Proof sketch.** Induction on the number of these characters: where the rule is applied again
inside itself, fewer are left. -/
lemma ends_loops (hs : g.Solves t env) {loops : ν → Bool} {bound : Nat}
    (h : ∀ x, loops x = true → g.bounded loops bound false (.named x) = true) :
    ∀ n x, loops x = true → (g.apply t (bound * n)).Ends t n true (.named x)
  | 0, _, _ => fun _ _ hcs => absurd hcs.2 (Nat.not_succ_le_zero _)
  | n + 1, x, hx => by
    intro scope cs hcs
    have hleft : t.Within n false cs := ⟨hcs.1, Nat.le_of_succ_le_succ hcs.2⟩
    rw [Nat.mul_succ, Nat.add_comm]
    exact ends_apply hs (ends_loops hs h n) bound false (.named x) (h x hx) scope cs hleft

/-- A bounded rule does not exceed a limit of its bound for each character of the text and once
more. -/
theorem Solves.ends (hs : g.Solves t env) {loops : ν → Bool} {bound : Nat}
    (h : ∀ x, loops x = true → g.bounded loops bound false (.named x) = true) {rule : Rule ν α}
    (hrule : g.bounded loops bound false rule = true) :
    (g.apply t (bound * (t.size + 1))).Ends t t.size false rule := by
  rw [Nat.mul_succ, Nat.add_comm]
  exact ends_apply hs (ends_loops hs h t.size) bound false rule hrule

end Grammar

end Packrat
