import Packrat.Proofs.Grammar.Reachable
import Packrat.Proofs.Parsing.Producing
set_option autoImplicit false
set_option relaxedAutoImplicit false

/-!
# The search for values

A rule can produce a value if a capture or a builder is reached from it *openly*: through the parts
of rules and the bodies of named rules, but not through a lookahead. The search for one goes down
into each rule in turn and keeps a list of the named rules that were entered anywhere, so a named
rule that is met again is passed over, whatever became of it before. This is still exact. If the
search ends in vain, then all bodies that were entered lead to none but each other; and if it does
not, then a value was met.

So the answer depends on what is reached and on nothing else. In particular it does not depend on
the order of the parts of sequences and choices.

## Main definitions

* `Packrat.Grammar.ReachesOpenly`, `Packrat.Grammar.ReachesValue` — what is reached, but not through
  a lookahead.
* `Packrat.Rule.explore`, `Packrat.Grammar.enter` — the search through rules inside each other and
  bodies inside each other.
* `Packrat.Rule.Reordered`, `Packrat.Grammar.Reordered` — rules and grammars with the parts of
  sequences and choices in another order.

## Main results

* `Packrat.Grammar.answer?_explore` — both ways to search come to the same answer, and they end.
* `Packrat.Grammar.exists_produces` — the answer tells whether a value is reached.
* `Packrat.Grammar.Reordered.reachesOpenly` — reordered grammars reach the same rules, reordered.
* `Packrat.Grammar.produces_exact` — the search is exact, in whatever order parts are visited.
-/

namespace Packrat

variable {ν α : Type}

/-! ## What is reached openly -/

/-- Whether a rule is a capture or a builder. -/
def Rule.makesValue : Rule ν α → Bool
  | .capture _ _ | .build _ _ => true
  | _ => false

/-- Whether a rule is a lookahead. -/
def Rule.isLookahead : Rule ν α → Bool
  | .lookahead _ _ => true
  | _ => false

/-- The places of some parts are those of each of them, in order. -/
lemma Rule.partYields_eq (rules : List (Rule ν α)) :
    yields.partYields rules = rules.flatMap yields := by
  induction rules with
  | nil => rfl
  | cons rule rules ih => rw [yields.partYields, ih, List.flatMap_cons]

namespace Grammar

/-- One rule leads to another, and is no lookahead. -/
def LeadsOpenly (g : Grammar ν α) (outer inner : Rule ν α) : Prop :=
  outer.isLookahead = false ∧ g.Leads outer inner

/-- One rule leads to another in any number of steps, none of them from a lookahead. -/
abbrev ReachesOpenly (g : Grammar ν α) : Rule ν α → Rule ν α → Prop :=
  Relation.ReflTransGen g.LeadsOpenly

/-- A capture or a builder is reached, but not through a lookahead. -/
def ReachesValue (g : Grammar ν α) (rule : Rule ν α) : Prop :=
  ∃ inner, g.ReachesOpenly rule inner ∧ inner.makesValue = true

/-- A place where a value may come from is reached. -/
def ReachesPlace (g : Grammar ν α) (rule : Rule ν α) : Yield ν → Prop
  | .value => g.ReachesValue rule
  | .rule x => g.ReachesOpenly rule (.named x)

variable {g : Grammar ν α}

/-- What is reached from a rule that is reached. -/
lemma ReachesPlace.of_reaches {outer inner : Rule ν α} {place : Yield ν}
    (hinner : g.ReachesPlace inner place)
    (h : g.ReachesOpenly outer inner) : g.ReachesPlace outer place := by
  cases place with
  | value =>
    obtain ⟨last, hreach, hvalue⟩ := hinner
    exact ⟨last, h.trans hreach, hvalue⟩
  | rule x => exact Relation.ReflTransGen.trans h hinner

mutual

/-- A rule reaches the places in it. -/
lemma reachesPlace_of_mem_yields :
    ∀ {rule : Rule ν α} {place : Yield ν}, place ∈ rule.yields → g.ReachesPlace rule place
  | .capture _ _, _, h | .build _ _, _, h => by
    rw [List.mem_singleton.1 h]
    exact ⟨_, .refl, rfl⟩
  | .named y, _, h => by
    rw [List.mem_singleton.1 h]
    exact .refl
  | .sequence rules, _, h | .choice rules, _, h => by
    obtain ⟨part, hpart, hreach⟩ := exists_reachesPlace_of_mem_partYields h
    exact hreach.of_reaches (.single ⟨rfl, .child hpart⟩)
  | .repetition rule _ _, place, h | .optional rule, place, h | .bind _ rule, place, h => by
    have hreach : g.ReachesPlace rule place := reachesPlace_of_mem_yields h
    exact hreach.of_reaches (.single ⟨rfl, .child (List.mem_singleton_self rule)⟩)

/-- A place among those of some parts is reached from one of them. -/
lemma exists_reachesPlace_of_mem_partYields :
    ∀ {rules : List (Rule ν α)} {place : Yield ν}, place ∈ Rule.yields.partYields rules →
      ∃ part ∈ rules, g.ReachesPlace part place
  | rule :: rules, _, h => by
    rcases List.mem_append.1 h with h | h
    · exact ⟨rule, List.mem_cons_self, reachesPlace_of_mem_yields h⟩
    · obtain ⟨part, hpart, hreach⟩ := exists_reachesPlace_of_mem_partYields h
      exact ⟨part, List.mem_cons_of_mem rule hpart, hreach⟩

end

variable [DecidableEq ν]

/-! ## Exactness -/

/-- Where nothing is a value but what known rules produce, so it is in what is reached openly. -/
lemma Mute.of_leadsOpenly {known : List ν} {outer inner : Rule ν α} (hknown : g.Mute known)
    (houter : outer.Mute known) (h : g.LeadsOpenly outer inner) : inner.Mute known := by
  obtain ⟨hopen, hleads⟩ := h
  cases hleads with
  | body hbody =>
    exact hknown _ (of_decide_eq_true (houter (.rule _) (List.mem_singleton_self _))) _ hbody
  | child hchild =>
    cases outer with
    | sequence rules | choice rules =>
      rw [Rule.Mute, Rule.yields, Rule.partYields_eq] at houter
      exact fun place hplace => houter place (List.mem_flatMap_of_mem hchild hplace)
    | repetition | optional | bind =>
      obtain rfl := List.mem_singleton.1 hchild
      exact houter
    | capture | build => exact absurd (houter .value (List.mem_singleton_self _)) nofun
    | lookahead => cases hopen
    | literal | charSet | any | lineStart | backref | named => cases hchild

/-- Where no value could come from but from known rules, this is so of everything reached openly. -/
lemma Mute.of_reachesOpenly {known : List ν} {outer inner : Rule ν α} (hknown : g.Mute known)
    (houter : outer.Mute known) (h : g.ReachesOpenly outer inner) : inner.Mute known := by
  induction h with
  | refl => exact houter
  | tail _ hleads ih => exact Mute.of_leadsOpenly hknown ih hleads

/-- So no value is reached from there. -/
lemma not_reachesValue_of_mute {known : List ν} {rule : Rule ν α} (hknown : g.Mute known)
    (hrule : rule.Mute known) : ¬ g.ReachesValue rule := by
  rintro ⟨inner, hreach, hvalue⟩
  have hinner := Mute.of_reachesOpenly hknown hrule hreach
  cases inner with
  | capture | build => exact absurd (hinner .value (List.mem_singleton_self _)) nofun
  | _ => cases hvalue

/-- If no value is reached, nothing is a value but what the named rules that are reached produce. -/
lemma exists_mute_of_not_reachesValue {rule : Rule ν α} (h : ¬ g.ReachesValue rule) :
    ∃ known, g.Mute known ∧ rule.Mute known := by
  classical
  have hplaces : ∀ {inner : Rule ν α}, g.ReachesOpenly rule inner →
      inner.Mute (g.rules.filter fun x => g.ReachesOpenly rule (.named x)) := by
    intro inner hreach place hplace
    have hinner := g.reachesPlace_of_mem_yields hplace
    cases place with
    | value =>
      obtain ⟨last, hlast, hvalue⟩ := hinner
      exact absurd ⟨last, hreach.trans hlast, hvalue⟩ h
    | rule x =>
      exact decide_eq_true (List.mem_filter.2 ⟨g.mem_rules x, decide_eq_true (hreach.trans hinner)⟩)
  refine ⟨_, fun x hx body hbody => hplaces ?_, hplaces .refl⟩
  exact (of_decide_eq_true (List.mem_filter.1 hx).2).tail ⟨rfl, .body hbody⟩

/-- A search does not fail if the bodies that are reached from the pending places are rules. -/
lemma exists_producesFrom {start : Rule ν α}
    (hbodies : ∀ x, g.ReachesOpenly start (.named x) → ∃ body, (g.define x).body = .ok body) :
    ∀ (budget : Nat) (entered : List ν) (pending : List (Yield ν)),
      (∀ place ∈ pending, g.ReachesPlace start place) →
      ∃ answer, g.producesFrom budget entered pending = .ok answer
  | 0, _, _, _ => ⟨false, rfl⟩
  | budget + 1, entered, pending, hpending => by
    rw [producesFrom]
    rcases Yield.pending_cases entered pending with
        ⟨-, hdrop⟩ | ⟨front, place, rest, rfl, -, -, hdrop⟩
    · exact ⟨false, by rw [hdrop]⟩
    · obtain ⟨hplace, hrest⟩ := List.forall_mem_cons.1 (List.forall_mem_append.1 hpending).2
      rw [hdrop]
      cases place with
      | value => exact ⟨true, rfl⟩
      | rule x =>
        obtain ⟨body, hbody⟩ := hbodies x hplace
        have hreach : g.ReachesOpenly start body :=
          Relation.ReflTransGen.tail hplace ⟨rfl, .body hbody⟩
        have hbelow : ∀ other ∈ body.yields, g.ReachesPlace start other := fun other hother =>
          (reachesPlace_of_mem_yields hother).of_reaches hreach
        simp only [hbody, bind, Except.bind]
        exact exists_producesFrom hbodies budget _ _ (List.forall_mem_append.2 ⟨hbelow, hrest⟩)

/-- The search has an answer, which tells whether a value is reached, if the bodies that are reached
are rules. -/
theorem exists_produces {rule : Rule ν α}
    (hbodies : ∀ x, g.ReachesOpenly rule (.named x) → ∃ body, (g.define x).body = .ok body) :
    ∃ answer, g.produces rule = .ok answer ∧ (answer = true ↔ g.ReachesValue rule) := by
  obtain ⟨found, hfound⟩ := exists_producesFrom hbodies (g.rules.length + 1) [] rule.yields
    fun _ => reachesPlace_of_mem_yields
  refine ⟨found, hfound, ?_⟩
  cases found with
  | false =>
    obtain ⟨known, hknown, hrule⟩ := exists_mute_of_produces hfound
    exact ⟨nofun, fun hreach => absurd hreach (not_reachesValue_of_mute hknown hrule)⟩
  | true =>
    refine ⟨fun _ => ?_, fun _ => rfl⟩
    by_contra hnot
    obtain ⟨known, hknown, hrule⟩ := exists_mute_of_not_reachesValue hnot
    exact producesFrom_ne_true hknown _ _ _ hrule hfound

end Grammar

/-! ## Rules inside each other -/

/-- How a search ends that goes down into rules. -/
inductive Exploration (ν : Type) where
  /-- It has met a value. -/
  | found
  /-- It has met none; by now so many named rules were entered. -/
  | vain (entered : List ν)
  /-- It has come to a body that is no rule. -/
  | mistaken (mistake : RuleError)
  /-- It was cut short, since bodies are nested deeper than it may go. -/
  | unfinished

namespace Exploration

/-- Goes on in the same way if there was no value so far. -/
def otherwise (exploration : Exploration ν) (next : List ν → Exploration ν) : Exploration ν :=
  match exploration with
  | .vain entered => next entered
  | ended => ended

/-- The answer, if the search was not cut short. -/
def answer? : Exploration ν → Option (Except RuleError Bool)
  | .found => some (.ok true)
  | .vain _ => some (.ok false)
  | .mistaken mistake => some (.error mistake)
  | .unfinished => none

end Exploration

/-- Searches a rule for values, with some named rules entered before. How named rules are entered is
an argument. -/
def Rule.explore (enter : ν → List ν → Exploration ν) : Rule ν α → List ν → Exploration ν
  | .capture _ _, _ | .build _ _, _ => .found
  | .lookahead _ _, entered => .vain entered
  | .named x, entered => enter x entered
  | .sequence rules, entered | .choice rules, entered => exploreParts rules entered
  | .repetition rule _ _, entered | .optional rule, entered | .bind _ rule, entered =>
    rule.explore enter entered
  | .literal _, entered | .charSet _, entered | .any, entered | .lineStart, entered
  | .backref _, entered =>
    .vain entered
where
  /-- Searches the parts of a sequence or choice, up to the first one with a value. -/
  exploreParts : List (Rule ν α) → List ν → Exploration ν
    | [], entered => .vain entered
    | rule :: rules, entered => (rule.explore enter entered).otherwise (exploreParts rules)

namespace Grammar

variable [DecidableEq ν] {g : Grammar ν α}

/-- Searches the body of a named rule for values, if it was not entered before. Bodies may be nested
so deep. -/
def enter (g : Grammar ν α) : Nat → ν → List ν → Exploration ν
  | 0, _, _ => .unfinished
  | depth + 1, x, entered =>
    if x ∈ entered then .vain entered
    else
      match (g.define x).body with
      | .error mistake => .mistaken mistake
      | .ok body => body.explore (g.enter depth) (x :: entered)

variable (g) in
/-- An exploration tells what the search over pending places finds, if these begin with the places
explored: a value, a mistake, or what it finds in the places behind them, with more named rules
entered. -/
inductive Tells (rest : List (Yield ν)) (size : Nat) : Exploration ν → Except RuleError Bool → Prop
  | found : Tells rest size .found (.ok true)
  | mistaken (mistake : RuleError) : Tells rest size (.mistaken mistake) (.error mistake)
  | vain {after : List ν} {left : Nat} (hnodup : after.Nodup) (hsize : size ≤ after.length)
      (hleft : g.rules.length < left + after.length) :
      Tells rest size (.vain after) (g.producesFrom left after rest)

variable (g) in
/-- With some named rules entered, an exploration tells what the search finds that begins with some
places. -/
def Agrees (entered : List ν) (places : List (Yield ν)) (exploration : Exploration ν) : Prop :=
  ∀ budget rest, g.rules.length < budget + entered.length →
    g.Tells rest entered.length exploration (g.producesFrom budget entered (places ++ rest))

/-- What a search tells does not need all of the size that it may use. -/
lemma Tells.mono {rest : List (Yield ν)} {size smaller : Nat} {exploration : Exploration ν}
    {searched : Except RuleError Bool} (h : g.Tells rest size exploration searched)
    (hle : smaller ≤ size) :
    g.Tells rest smaller exploration searched := by
  cases h with
  | found => exact .found
  | mistaken mistake => exact .mistaken mistake
  | vain hnodup hsize hleft => exact .vain hnodup (Nat.le_trans hle hsize) hleft

omit [DecidableEq ν] in
/-- There are only so many named rules to enter, so something is left of a budget that covers them
all. -/
lemma exists_left {budget : Nat} {entered : List ν} (hnodup : entered.Nodup)
    (hbudget : g.rules.length < budget + entered.length) : ∃ left, budget = left + 1 := by
  have hle := (hnodup.subperm fun x _ => g.mem_rules x).length_le
  exact Nat.exists_eq_succ_of_ne_zero (by omega)

/-- Where there is nowhere to search, the search is in vain. -/
lemma agrees_vain {entered : List ν} (hnodup : entered.Nodup) :
    g.Agrees entered [] (.vain entered) :=
  fun _ _ hbudget => .vain hnodup (Nat.le_refl _) hbudget

/-- Two searches one behind the other agree with the search through both rows of places. -/
lemma Agrees.otherwise {entered : List ν} {places more : List (Yield ν)}
    {exploration : Exploration ν}
    {next : List ν → Exploration ν} (h : g.Agrees entered places exploration)
    (hnext : ∀ after, after.Nodup → entered.length ≤ after.length →
      g.Agrees after more (next after)) :
    g.Agrees entered (places ++ more) (exploration.otherwise next) := by
  intro budget rest hbudget
  have hfirst := h budget (more ++ rest) hbudget
  rw [List.append_assoc]
  generalize g.producesFrom budget entered (places ++ (more ++ rest)) = searched at hfirst ⊢
  cases hfirst with
  | found => exact .found
  | mistaken mistake => exact .mistaken mistake
  | vain hnodup hsize hleft => exact (hnext _ hnodup hsize _ rest hleft).mono hsize

mutual

/-- If named rules are entered as the search over places does it, then rules are searched so. -/
lemma agrees_explore {depth : Nat} {enter : ν → List ν → Exploration ν}
    (henter : ∀ x entered, entered.Nodup → g.rules.length < depth + entered.length →
      g.Agrees entered [.rule x] (enter x entered)) :
    ∀ (rule : Rule ν α) (entered : List ν), entered.Nodup →
      g.rules.length < depth + entered.length →
      g.Agrees entered rule.yields (rule.explore enter entered)
  | .capture _ _, entered, hnodup, _ | .build _ _, entered, hnodup, _ => by
    intro budget rest hbudget
    obtain ⟨left, rfl⟩ := exists_left hnodup hbudget
    exact .found
  | .named x, entered, hnodup, hdepth => henter x entered hnodup hdepth
  | .sequence rules, entered, hnodup, hdepth | .choice rules, entered, hnodup, hdepth =>
    agrees_exploreParts henter rules entered hnodup hdepth
  | .repetition rule _ _, entered, hnodup, hdepth | .optional rule, entered, hnodup, hdepth
  | .bind _ rule, entered, hnodup, hdepth => agrees_explore henter rule entered hnodup hdepth
  | .lookahead _ _, _, hnodup, _ | .literal _, _, hnodup, _ | .charSet _, _, hnodup, _
  | .any, _, hnodup, _
  | .lineStart, _, hnodup, _ | .backref _, _, hnodup, _ => agrees_vain hnodup

/-- The search through some parts in order agrees with the one through all their places. -/
lemma agrees_exploreParts {depth : Nat} {enter : ν → List ν → Exploration ν}
    (henter : ∀ x entered, entered.Nodup → g.rules.length < depth + entered.length →
      g.Agrees entered [.rule x] (enter x entered)) :
    ∀ (rules : List (Rule ν α)) (entered : List ν), entered.Nodup →
      g.rules.length < depth + entered.length →
      g.Agrees entered (Rule.yields.partYields rules)
        (Rule.explore.exploreParts enter rules entered)
  | [], _, hnodup, _ => agrees_vain hnodup
  | rule :: rules, entered, hnodup, hdepth =>
    (agrees_explore henter rule entered hnodup hdepth).otherwise fun after hafter hle =>
      agrees_exploreParts henter rules after hafter (by omega)

end

/-- Entering a named rule is what the search over places does with it.

**Proof sketch.** Induction on how deep bodies may be nested. Each body in which another one is
nested was entered and is not entered again, so there are not more of them than named rules. -/
lemma agrees_enter :
    ∀ (depth : Nat) (x : ν) (entered : List ν), entered.Nodup →
      g.rules.length < depth + entered.length →
      g.Agrees entered [.rule x] (g.enter depth x entered)
  | 0, _, _, hnodup, hdepth => absurd (exists_left hnodup hdepth) nofun
  | depth + 1, x, entered, hnodup, hdepth => by
    intro budget rest hbudget
    obtain ⟨left, rfl⟩ := exists_left hnodup hbudget
    by_cases hx : x ∈ entered
    · have hpass : g.producesFrom (left + 1) entered ([.rule x] ++ rest) =
          g.producesFrom (left + 1) entered rest := by
        rw [producesFrom, producesFrom, List.singleton_append,
          List.dropWhile_cons_of_pos (by simpa [Yield.isKnown] using hx)]
      rw [enter, if_pos hx, hpass]
      exact .vain hnodup (Nat.le_refl _) hbudget
    · rw [enter, if_neg hx, producesFrom, List.singleton_append,
        List.dropWhile_cons_of_neg (by simpa [Yield.isKnown] using hx)]
      cases hbody : (g.define x).body with
      | error mistake =>
        simp only [hbody, bind, Except.bind]
        exact .mistaken mistake
      | ok body =>
        have hinside := agrees_explore (fun y => agrees_enter depth y) body (x :: entered)
          (List.nodup_cons.2 ⟨hx, hnodup⟩) (by rw [List.length_cons]; omega) left rest
          (by rw [List.length_cons]; omega)
        simp only [hbody, bind, Except.bind]
        exact hinside.mono (by simp)

/-- Both ways to search come to the same answer, or the same mistake. The one through rules inside
each other ends, and the bodies in it are not nested deeper than there are named rules. -/
theorem answer?_explore (g : Grammar ν α) (rule : Rule ν α) {depth : Nat}
    (hdepth : g.rules.length < depth) :
    (rule.explore (g.enter depth) []).answer? = some (g.produces rule) := by
  have htells :=
    agrees_explore (fun y => g.agrees_enter depth y) rule [] List.nodup_nil (by simpa using hdepth)
    (g.rules.length + 1) [] (by simp)
  rw [List.append_nil] at htells
  rw [produces]
  generalize rule.explore (g.enter depth) [] = exploration at htells ⊢
  generalize g.producesFrom (g.rules.length + 1) [] rule.yields = searched at htells ⊢
  cases htells with
  | found | mistaken => rfl
  | @vain after left =>
    -- Nothing is pending behind the rule.
    cases left <;> rfl

end Grammar

/-! ## Other orders -/

/-- Two rules are the same but for the order of the parts of sequences and choices, at any depth. -/
inductive Rule.Reordered : Rule ν α → Rule ν α → Prop
  | refl (rule : Rule ν α) : Reordered rule rule
  | trans {first second third : Rule ν α} (h : Reordered first second)
      (h' : Reordered second third) :
      Reordered first third
  | sequence {rules others : List (Rule ν α)} (h : rules.Perm others) :
      Reordered (.sequence rules) (.sequence others)
  | choice {rules others : List (Rule ν α)} (h : rules.Perm others) :
      Reordered (.choice rules) (.choice others)
  | part {front rest : List (Rule ν α)} {rule other : Rule ν α} (h : Reordered rule other) :
      Reordered (.sequence (front ++ rule :: rest)) (.sequence (front ++ other :: rest))
  | alternative {front rest : List (Rule ν α)} {rule other : Rule ν α} (h : Reordered rule other) :
      Reordered (.choice (front ++ rule :: rest)) (.choice (front ++ other :: rest))
  | repetition {rule other : Rule ν α} (h : Reordered rule other) (least : Int)
      (most : Option Int) :
      Reordered (.repetition rule least most) (.repetition other least most)
  | optional {rule other : Rule ν α} (h : Reordered rule other) :
      Reordered (.optional rule) (.optional other)
  | lookahead {rule other : Rule ν α} (negative : Bool) (h : Reordered rule other) :
      Reordered (.lookahead negative rule) (.lookahead negative other)
  | capture {rule other : Rule ν α} (name : String) (h : Reordered rule other) :
      Reordered (.capture name rule) (.capture name other)
  | build {rule other : Rule ν α} (builder : Builder α) (h : Reordered rule other) :
      Reordered (.build builder rule) (.build builder other)
  | bind {rule other : Rule ν α} (name : String) (h : Reordered rule other) :
      Reordered (.bind name rule) (.bind name other)

namespace Rule.Reordered

variable {rule other : Rule ν α}

/-- Reordering goes both ways. -/
lemma symm (h : rule.Reordered other) : other.Reordered rule := by
  induction h with
  | refl rule => exact .refl rule
  | trans _ _ ih ih' => exact .trans ih' ih
  | sequence h => exact .sequence h.symm
  | choice h => exact .choice h.symm
  | part _ ih => exact .part ih
  | alternative _ ih => exact .alternative ih
  | repetition _ least most ih => exact .repetition ih least most
  | optional _ ih => exact .optional ih
  | lookahead negative _ ih => exact .lookahead negative ih
  | capture name _ ih => exact .capture name ih
  | build builder _ ih => exact .build builder ih
  | bind name _ ih => exact .bind name ih

/-- A reordered lookahead is a lookahead, and nothing else is. -/
lemma isLookahead_eq (h : rule.Reordered other) : rule.isLookahead = other.isLookahead := by
  induction h with
  | trans _ _ ih ih' => exact ih.trans ih'
  | _ => rfl

/-- Rules make values or not, in whatever order their parts are. -/
lemma makesValue_eq (h : rule.Reordered other) : rule.makesValue = other.makesValue := by
  induction h with
  | trans _ _ ih ih' => exact ih.trans ih'
  | _ => rfl

/-- Only a named rule itself is reordered to that named rule. -/
lemma eq_named {x : ν} (h : rule.Reordered other) (hother : other = .named x) :
    rule = .named x := by
  induction h with
  | refl => exact hother
  | trans _ _ ih ih' => exact ih (ih' hother)
  | _ => cases hother

/-- Reordered rules have the same parts, reordered. -/
lemma exists_child (h : rule.Reordered other) :
    ∀ child ∈ other.children, ∃ part ∈ rule.children, part.Reordered child := by
  induction h with
  | refl => exact fun child hchild => ⟨child, hchild, .refl child⟩
  | trans _ _ ih ih' =>
    intro child hchild
    obtain ⟨middle, hmiddle, hreordered⟩ := ih' child hchild
    obtain ⟨part, hpart, hreordered'⟩ := ih middle hmiddle
    exact ⟨part, hpart, hreordered'.trans hreordered⟩
  | sequence h | choice h => exact fun child hchild => ⟨child, h.mem_iff.2 hchild, .refl child⟩
  | part h | alternative h =>
    intro child hchild
    rcases List.mem_append.1 hchild with hfront | hrest
    · exact ⟨child, List.mem_append_left _ hfront, .refl child⟩
    · rcases List.mem_cons.1 hrest with rfl | hrest
      · exact ⟨_, List.mem_append_right _ List.mem_cons_self, h⟩
      · exact ⟨child, List.mem_append_right _ (List.mem_cons_of_mem _ hrest), .refl child⟩
  | repetition h | optional h | lookahead _ h | capture _ h | build _ h | bind _ h =>
    intro child hchild
    rw [List.mem_singleton.1 hchild]
    exact ⟨_, List.mem_singleton_self _, h⟩

end Rule.Reordered

/-- Two bodies are reordered, or are the same mistake. -/
inductive Rule.BodyReordered : Except RuleError (Rule ν α) → Except RuleError (Rule ν α) → Prop
  | ok {body other : Rule ν α} (h : body.Reordered other) : BodyReordered (.ok body) (.ok other)
  | error (mistake : RuleError) : BodyReordered (.error mistake) (.error mistake)

namespace Grammar

/-- Two grammars are the same but for names and for the order of the parts of sequences and
choices. -/
def Reordered (g other : Grammar ν α) : Prop :=
  ∀ x, Rule.BodyReordered (g.define x).body (other.define x).body

variable {g other : Grammar ν α} {rule reordered : Rule ν α}

/-- If a grammar is a reordered form of another one, so is that one of the first. -/
lemma Reordered.symm (h : g.Reordered other) : other.Reordered g := by
  intro x
  have hx := h x
  generalize (g.define x).body = body at hx ⊢
  generalize (other.define x).body = body' at hx ⊢
  cases hx with
  | ok h => exact .ok h.symm
  | error mistake => exact .error mistake

/-- Bodies in a reordered grammar are reordered bodies. -/
lemma Reordered.exists_body (h : g.Reordered other) {x : ν} {body' : Rule ν α}
    (hbody : (other.define x).body = .ok body') :
    ∃ body, (g.define x).body = .ok body ∧ body.Reordered body' := by
  have hx := h x
  rw [hbody] at hx
  generalize (g.define x).body = body at hx ⊢
  cases hx with
  | ok h => exact ⟨_, rfl, h⟩

/-- Each step in a reordered grammar is one in the grammar. -/
lemma Reordered.leadsOpenly {inner' : Rule ν α} (hg : g.Reordered other)
    (h : rule.Reordered reordered)
    (hleads : other.LeadsOpenly reordered inner') :
    ∃ inner, g.LeadsOpenly rule inner ∧ inner.Reordered inner' := by
  obtain ⟨hopen, hleads⟩ := hleads
  have hopen' : rule.isLookahead = false := h.isLookahead_eq.trans hopen
  cases hleads with
  | child hchild =>
    obtain ⟨part, hpart, hreordered⟩ := h.exists_child _ hchild
    exact ⟨part, ⟨hopen', .child hpart⟩, hreordered⟩
  | body hbody =>
    obtain ⟨body, hbody', hreordered⟩ := hg.exists_body hbody
    obtain rfl := h.eq_named rfl
    exact ⟨body, ⟨hopen', .body hbody'⟩, hreordered⟩

/-- What a reordered grammar reaches, the grammar reaches, reordered. -/
theorem Reordered.reachesOpenly {inner' : Rule ν α} (hg : g.Reordered other)
    (h : rule.Reordered reordered) (hreach : other.ReachesOpenly reordered inner') :
    ∃ inner, g.ReachesOpenly rule inner ∧ inner.Reordered inner' := by
  induction hreach with
  | refl => exact ⟨rule, .refl, h⟩
  | tail _ hleads ih =>
    obtain ⟨middle, hmiddle, hreordered⟩ := ih
    obtain ⟨inner, hinner, hreordered'⟩ := hg.leadsOpenly hreordered hleads
    exact ⟨inner, hmiddle.tail hinner, hreordered'⟩

/-- A value that is reached in a reordered grammar is reached in the grammar, too. -/
lemma Reordered.reachesValue (hg : g.Reordered other) (h : rule.Reordered reordered)
    (hvalue : other.ReachesValue reordered) : g.ReachesValue rule := by
  obtain ⟨inner', hreach, hvalue⟩ := hvalue
  obtain ⟨inner, hinner, hreordered⟩ := hg.reachesOpenly h hreach
  exact ⟨inner, hinner, hreordered.makesValue_eq.trans hvalue⟩

variable [DecidableEq ν]

/-- The search for values is exact. If the bodies of all named rules that are reached openly are
rules, then

* it gives an answer, and the answer is that a capture or a builder is reached openly;
* the search that goes down into rules inside each other, where the named rules that were entered
  stay entered, ends, nests no more bodies than there are named rules, and gives the same answer;
* in whatever order the parts of sequences and choices stand, the answer is the same. -/
theorem produces_exact (g : Grammar ν α) (rule : Rule ν α)
    (hbodies : ∀ x, g.ReachesOpenly rule (.named x) → ∃ body, (g.define x).body = .ok body) :
    (∃ answer, g.produces rule = .ok answer ∧ (answer = true ↔ g.ReachesValue rule) ∧
      ∀ depth, g.rules.length < depth →
        (rule.explore (g.enter depth) []).answer? = some (.ok answer)) ∧
    ∀ (other : Grammar ν α) (reordered : Rule ν α), g.Reordered other → rule.Reordered reordered →
      other.produces reordered = g.produces rule := by
  obtain ⟨answer, hanswer, hexact⟩ := exists_produces hbodies
  refine ⟨⟨answer, hanswer, hexact, fun depth hdepth => ?_⟩, fun other reordered hg h => ?_⟩
  · rw [answer?_explore g rule hdepth, hanswer]
  · have hbodies' : ∀ x, other.ReachesOpenly reordered (.named x) →
        ∃ body, (other.define x).body = .ok body := by
      intro x hx
      obtain ⟨inner, hinner, hsame⟩ := hg.reachesOpenly h hx
      obtain rfl := hsame.eq_named rfl
      obtain ⟨body, hbody⟩ := hbodies x hinner
      obtain ⟨body', hbody', -⟩ := hg.symm.exists_body hbody
      exact ⟨body', hbody'⟩
    obtain ⟨answer', hanswer', hexact'⟩ := exists_produces hbodies'
    have hiff : answer' = true ↔ answer = true := by
      rw [hexact, hexact']
      exact ⟨hg.reachesValue h, hg.symm.reachesValue h.symm⟩
    rw [hanswer, hanswer', Bool.eq_iff_iff.2 hiff]

/-- Two rules that refer to each other. Once the first one is entered nothing is found in the
second, although it does reach a value; the first one finds the value in front of it or behind
it. -/
def echo (behind : Bool) : Grammar Bool Unit where
  rules := [true, false]
  mem_rules := by decide
  define second :=
    { name := if second then "second" else "first"
      body := .ok <|
        if second then .optional (.named false)
        else if behind then .sequence [.named true, .capture "sound" .any]
        else .sequence [.capture "sound" .any, .named true] }

end Grammar

namespace Program

/-- A list is a value, and digits reach none. A rule that is met again is passed over, whatever it
reaches, and yet the answer is the same in another order. -/
theorem produces_exact_list :
    (∀ x, grammar.ReachesOpenly (.named .list) (.named x) →
      ∃ body, (grammar.define x).body = .ok body) ∧
    grammar.ReachesValue (.named .list) ∧ ¬ grammar.ReachesValue (.named .digits) ∧
    (∀ x, (Grammar.echo true).ReachesOpenly (.named false) (.named x) →
      ∃ body, ((Grammar.echo true).define x).body = .ok body) ∧
    (Grammar.echo true).ReachesValue (.named true) ∧
    (Rule.explore ((Grammar.echo true).enter 3) (.named true : Rule Bool Unit) [false]).answer? =
      some (.ok false) ∧
    (Grammar.echo true).Reordered (Grammar.echo false) ∧
    (Grammar.echo true).produces (.named false) = .ok true ∧
    (Grammar.echo false).produces (.named false) = .ok true := by
  have hbodies : ∀ x, ∃ body, (grammar.define x).body = .ok body := fun x => ⟨body x, rfl⟩
  have hechoes : ∀ x, ∃ body, ((Grammar.echo true).define x).body = .ok body := fun _ => ⟨_, rfl⟩
  have hreordered : (Grammar.echo true).Reordered (Grammar.echo false) := by
    intro second
    cases second with
    | false => exact .ok (.sequence (List.Perm.swap _ _ _))
    | true => exact .ok (.refl _)
  obtain ⟨⟨list, hlist, hlistExact, -⟩, -⟩ :=
    Grammar.produces_exact grammar (.named .list) fun x _ => hbodies x
  obtain ⟨⟨digits, hdigits, hdigitsExact, -⟩, -⟩ :=
    Grammar.produces_exact grammar (.named .digits) fun x _ => hbodies x
  obtain ⟨⟨second, hsecond, hsecondExact, -⟩, -⟩ :=
    Grammar.produces_exact (Grammar.echo true) (.named true) fun x _ => hechoes x
  obtain ⟨-, horder⟩ :=
    Grammar.produces_exact (Grammar.echo true) (.named false) fun x _ => hechoes x
  have hlist' : grammar.produces (.named .list) = .ok true := by decide +kernel
  have hdigits' : grammar.produces (.named .digits) = .ok false := by decide +kernel
  have hsecond' : (Grammar.echo true).produces (.named true) = .ok true := by decide +kernel
  have hfirst : (Grammar.echo true).produces (.named false) = .ok true := by decide +kernel
  refine ⟨fun x _ => hbodies x, hlistExact.1 ?_, fun h => ?_, fun x _ => hechoes x,
    hsecondExact.1 ?_, rfl, hreordered, hfirst, (horder _ _ hreordered (.refl _)).trans hfirst⟩
  · exact Except.ok.inj (hlist.symm.trans hlist')
  · cases (hdigitsExact.2 h).symm.trans (Except.ok.inj (hdigits.symm.trans hdigits'))
  · exact Except.ok.inj (hsecond.symm.trans hsecond')

end Program

end Packrat
