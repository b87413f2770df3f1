import Mathlib.Data.List.Perm.Subperm
import Packrat.Grammar.Reachable
import Packrat.Program.Grammar
import Packrat.Proofs.Matching.Fragment
set_option autoImplicit false
set_option relaxedAutoImplicit false

/-!
# The search for the rules that a start rule reaches

A start rule reaches named rules through the rules inside it, lookaheads included, and through the
bodies of named rules. The search for them keeps a stack of named rules that are still to be looked
at. What it has found is reached, and what is directly in a body that it has entered is found or on
the stack. So once the stack is empty, everything that is reached is found, and the only way to end
before that is a name that two rules have. In which order rules are looked at does not matter for
this, nor on how many paths they are reached.

## Main definitions

* `Packrat.Grammar.Searched` — what holds of a search after each step.

## Main results

* `Packrat.Grammar.Searched.enter` — what holds of a search still holds when one more body is
  entered.
* `Packrat.Grammar.Searched.verdict` — how a search ends.
* `Packrat.Grammar.reachable_exact` — a search finds what is reached, or two rules with one name.
-/

namespace Packrat

variable {ν α : Type}

/-! ## References and paths -/

namespace Rule

/-- The named rules in some parts are those of each of them, in order. -/
lemma partReferences_eq (rules : List (Rule ν α)) :
    references.partReferences rules = rules.flatMap references := by
  induction rules with
  | nil => rfl
  | cons rule rules ih => rw [references.partReferences, ih, List.flatMap_cons]

/-- The named rules in a part are in the rule around it. -/
lemma references_subset_of_mem_children {rule part : Rule ν α} (h : part ∈ rule.children) :
    part.references ⊆ rule.references := by
  intro x hx
  cases rule with
  | sequence rules | choice rules =>
    rw [references, partReferences_eq]
    exact List.mem_flatMap_of_mem h hx
  | repetition | optional | lookahead | capture | build | bind =>
    rw [children, List.mem_singleton] at h
    rwa [references, ← h]
  | literal | charSet | any | lineStart | backref | named => cases h

end Rule

namespace Grammar

variable {g : Grammar ν α} {start : Rule ν α} {found pending rest : List ν} {x y : ν}

mutual

/-- A rule reaches the named rules in it. -/
lemma reaches_of_mem_references :
    ∀ {rule : Rule ν α}, x ∈ rule.references → g.Reaches rule (.named x)
  | .named y, h => by
    rw [List.mem_singleton.1 h]
  | .sequence rules, h | .choice rules, h => by
    obtain ⟨part, hpart, hreach⟩ := exists_reaches_of_mem_partReferences h
    exact .head (.child hpart) hreach
  | .repetition rule _ _, h | .optional rule, h | .lookahead _ rule, h | .capture _ rule, h
  | .build _ rule, h | .bind _ rule, h => by
    have hreach : g.Reaches rule (.named x) := reaches_of_mem_references h
    exact .head (.child (List.mem_singleton_self rule)) hreach

/-- A named rule in one of some parts is reached from that part. -/
lemma exists_reaches_of_mem_partReferences :
    ∀ {rules : List (Rule ν α)}, x ∈ Rule.references.partReferences rules →
      ∃ part ∈ rules, g.Reaches part (.named x)
  | rule :: rules, h => by
    rcases List.mem_append.1 h with h | h
    · exact ⟨rule, List.mem_cons_self, reaches_of_mem_references h⟩
    · obtain ⟨part, hpart, hreach⟩ := exists_reaches_of_mem_partReferences h
      exact ⟨part, List.mem_cons_of_mem rule hpart, hreach⟩

end

/-- Some named rules that contain those in a rule, and those in each other's bodies, contain all
that the rule reaches.

**Proof sketch.** Induction on the path: the named rules in each rule on it are among them. -/
lemma references_subset_of_reaches {rule inner : Rule ν α}
    (hclosed : ∀ x ∈ found, ∀ body, (g.define x).body = .ok body → body.references ⊆ found)
    (hrule : rule.references ⊆ found) (h : g.Reaches rule inner) : inner.references ⊆ found := by
  induction h with
  | refl => exact hrule
  | tail _ hleads ih =>
    cases hleads with
    | child hchild => exact List.Subset.trans (Rule.references_subset_of_mem_children hchild) ih
    | body hbody => exact hclosed _ (ih (List.mem_singleton_self _)) _ hbody

/-! ## What holds of a search -/

variable (g start) in
/-- What holds of a search from a start rule, with what it has found and what is still to be looked
at. -/
structure Searched (found pending : List ν) : Prop where
  nodup : found.Nodup
  reaches_found : ∀ x ∈ found, g.Reaches start (.named x)
  reaches_pending : ∀ x ∈ pending, g.Reaches start (.named x)
  /-- The named rules in the start rule are found, or will be looked at. -/
  covers_start : ∀ x ∈ start.references, x ∈ found ∨ x ∈ pending
  /-- So are those in the bodies that were entered. -/
  covers_bodies : ∀ x ∈ found, ∀ body, (g.define x).body = .ok body →
    ∀ y ∈ body.references, y ∈ found ∨ y ∈ pending
  names_distinct : ∀ x ∈ found, ∀ y ∈ found, (g.define x).name = (g.define y).name → x = y

variable (g start) in
/-- The start rule reaches two different rules with the given name. -/
def Ambiguous (name : String) : Prop :=
  ∃ x y, x ≠ y ∧ g.Reaches start (.named x) ∧ g.Reaches start (.named y) ∧
    (g.define x).name = name ∧ (g.define y).name = name

namespace Searched

/-- A search begins with nothing found, and with the named rules of the start rule on the stack. -/
lemma initial : g.Searched start [] start.references.reverse where
  nodup := List.nodup_nil
  reaches_found := nofun
  reaches_pending _ h := reaches_of_mem_references (List.mem_reverse.1 h)
  covers_start _ h := .inr (List.mem_reverse.2 h)
  covers_bodies := nofun
  names_distinct := nofun

/-- A rule that was found before can be dropped from the stack. -/
lemma drop (h : g.Searched start found (x :: rest)) (hx : x ∈ found) :
    g.Searched start found rest := by
  have hcovered : ∀ y, y ∈ found ∨ y ∈ x :: rest → y ∈ found ∨ y ∈ rest := by
    rintro y (hy | hy)
    · exact .inl hy
    · rcases List.mem_cons.1 hy with rfl | hy
      · exact .inl hx
      · exact .inr hy
  exact {
    nodup := h.nodup
    reaches_found := h.reaches_found
    reaches_pending := fun y hy => h.reaches_pending y (List.mem_cons_of_mem x hy)
    covers_start := fun y hy => hcovered y (h.covers_start y hy)
    covers_bodies := fun y hy body hbody z hz => hcovered z (h.covers_bodies y hy body hbody z hz)
    names_distinct := h.names_distinct }

/-- One more rule is found, if no other one has its name, and the named rules in its body come on
the stack. -/
lemma enter {body : Rule ν α} (h : g.Searched start found (x :: rest)) (hnew : x ∉ found)
    (hname : ∀ y ∈ found, (g.define y).name ≠ (g.define x).name)
    (hbody : (g.define x).body = .ok body) :
    g.Searched start (x :: found) (body.references.reverse ++ rest) := by
  have hx : g.Reaches start (.named x) := h.reaches_pending x List.mem_cons_self
  have hcovered : ∀ y, y ∈ found ∨ y ∈ x :: rest →
      y ∈ x :: found ∨ y ∈ body.references.reverse ++ rest := by
    rintro y (hy | hy)
    · exact .inl (List.mem_cons_of_mem x hy)
    · rcases List.mem_cons.1 hy with rfl | hy
      · exact .inl List.mem_cons_self
      · exact .inr (List.mem_append_right _ hy)
  refine ⟨List.nodup_cons.2 ⟨hnew, h.nodup⟩, List.forall_mem_cons.2 ⟨hx, h.reaches_found⟩, ?_, ?_,
    ?_, ?_⟩
  · intro y hy
    rcases List.mem_append.1 hy with hy | hy
    · exact (hx.tail (.body hbody)).trans (reaches_of_mem_references (List.mem_reverse.1 hy))
    · exact h.reaches_pending y (List.mem_cons_of_mem x hy)
  · exact fun y hy => hcovered y (h.covers_start y hy)
  · intro y hy other hother z hz
    rcases List.mem_cons.1 hy with rfl | hy
    · obtain rfl : body = other := Except.ok.inj (hbody.symm.trans hother)
      exact .inr (List.mem_append_left _ (List.mem_reverse.2 hz))
    · exact hcovered z (h.covers_bodies y hy other hother z hz)
  · intro y hy z hz heq
    rcases List.mem_cons.1 hy with hyx | hy <;> rcases List.mem_cons.1 hz with hzx | hz
    · exact hyx.trans hzx.symm
    · exact absurd (hyx ▸ heq.symm) (hname z hz)
    · exact absurd (hzx ▸ heq) (hname y hy)
    · exact h.names_distinct y hy z hz heq

/-- A rule that was not found before, with the name of one that was, makes the name ambiguous. -/
lemma ambiguous (h : g.Searched start found (x :: rest)) (hnew : x ∉ found) (hy : y ∈ found)
    (hname : (g.define y).name = (g.define x).name) : g.Ambiguous start (g.define x).name :=
  ⟨x, y, fun heq => hnew (heq ▸ hy), h.reaches_pending x List.mem_cons_self, h.reaches_found y hy,
    rfl, hname⟩

/-- When nothing is left to be looked at, what was found is what is reached. -/
lemma mem_iff (h : g.Searched start found []) : x ∈ found ↔ g.Reaches start (.named x) := by
  have hclosed : ∀ y ∈ found, ∀ body, (g.define y).body = .ok body → body.references ⊆ found :=
    fun y hy body hbody z hz =>
      (h.covers_bodies y hy body hbody z hz).resolve_right List.not_mem_nil
  have hstart : start.references ⊆ found :=
    fun y hy => (h.covers_start y hy).resolve_right List.not_mem_nil
  refine ⟨h.reaches_found x, fun hx => ?_⟩
  exact references_subset_of_reaches hclosed hstart hx (List.mem_singleton_self x)

/-- So no name is ambiguous then. -/
lemma not_ambiguous (h : g.Searched start found []) (name : String) : ¬ g.Ambiguous start name := by
  rintro ⟨x, y, hne, hx, hy, hxname, hyname⟩
  exact hne (h.names_distinct x (h.mem_iff.2 hx) y (h.mem_iff.2 hy) (hxname.trans hyname.symm))

variable [DecidableEq ν]

/-- Named rules that are found already can be dropped from the stack. -/
lemma dropWhile (h : g.Searched start found pending) :
    g.Searched start found (pending.dropWhile fun x => decide (x ∈ found)) := by
  induction pending with
  | nil => exact h
  | cons x rest ih =>
    by_cases hx : x ∈ found
    · rw [List.dropWhile_cons_of_pos (by simpa using hx)]
      exact ih (h.drop hx)
    · rwa [List.dropWhile_cons_of_neg (by simpa using hx)]

/-- What one step of a search comes to: nothing is left to be looked at, two rules have one name, or
one more rule is found and the search goes on. -/
lemma step (hbodies : ∀ x, g.Reaches start (.named x) → ∃ body, (g.define x).body = .ok body)
    (h : g.Searched start found pending) :
    (g.Searched start found [] ∧ ∀ budget, g.reachFrom (budget + 1) found pending = .ok found) ∨
    (∃ name, g.Ambiguous start name ∧
      ∀ budget, g.reachFrom (budget + 1) found pending = .error (.duplicateName name)) ∨
    ∃ x more, g.Searched start (x :: found) more ∧
      ∀ budget, g.reachFrom (budget + 1) found pending = g.reachFrom budget (x :: found) more := by
  have hdropped := h.dropWhile
  simp only [reachFrom]
  cases hpending : pending.dropWhile (fun x => decide (x ∈ found)) with
  | nil =>
    rw [hpending] at hdropped
    exact .inl ⟨hdropped, fun _ => rfl⟩
  | cons x rest =>
    rw [hpending] at hdropped
    have hnew : x ∉ found := by
      have hhead := List.head?_dropWhile_not (fun x => decide (x ∈ found)) pending
      simpa [hpending] using hhead
    by_cases hname : ∃ y ∈ found, (g.define y).name = (g.define x).name
    · obtain ⟨y, hy, heq⟩ := hname
      have hany : (found.any fun y => (g.define y).name == (g.define x).name) = true :=
        List.any_eq_true.2 ⟨y, hy, beq_iff_eq.2 heq⟩
      exact .inr (.inl ⟨_, hdropped.ambiguous hnew hy heq, fun _ => if_pos hany⟩)
    · have hany : ¬ (found.any fun y => (g.define y).name == (g.define x).name) = true :=
        fun hany => by
        obtain ⟨y, hy, heq⟩ := List.any_eq_true.1 hany
        exact hname ⟨y, hy, beq_iff_eq.1 heq⟩
      obtain ⟨body, hbody⟩ := hbodies x (hdropped.reaches_pending x List.mem_cons_self)
      refine .inr (.inr ⟨x, body.references.reverse ++ rest,
        hdropped.enter hnew (fun y hy heq => hname ⟨y, hy, heq⟩) hbody, fun _ => ?_⟩)
      simp only [if_neg hany, hbody]

/-- A search that is not cut short ends with all that is reached or with an ambiguous name, and how
much further it might have gone makes no difference.

**Proof sketch.** Induction on the budget. It is larger than the number of named rules that are not
found yet, so it lasts until nothing is left to be looked at. -/
theorem verdict (hbodies : ∀ x, g.Reaches start (.named x) → ∃ body, (g.define x).body = .ok body) :
    ∀ (budget : Nat) (found pending : List ν), g.Searched start found pending →
      g.rules.length < budget + found.length →
      (∀ larger, budget ≤ larger →
        g.reachFrom larger found pending = g.reachFrom budget found pending) ∧
      ((∃ all, g.reachFrom budget found pending = .ok all ∧ g.Searched start all []) ∨
        ∃ name, g.reachFrom budget found pending = .error (.duplicateName name) ∧
          g.Ambiguous start name)
  | 0, found, _, h, hbudget => by
    have hle := (h.nodup.subperm fun x _ => g.mem_rules x).length_le
    omega
  | budget + 1, found, pending, h, hbudget => by
    rcases h.step hbodies with ⟨hall, heq⟩ | ⟨name, hname, heq⟩ | ⟨x, more, hmore, heq⟩
    · refine ⟨fun larger hlarger => ?_, .inl ⟨found, heq budget, hall⟩⟩
      obtain ⟨less, rfl⟩ := Nat.exists_eq_succ_of_ne_zero (Nat.ne_zero_of_lt hlarger)
      rw [heq, heq]
    · refine ⟨fun larger hlarger => ?_, .inr ⟨name, heq budget, hname⟩⟩
      obtain ⟨less, rfl⟩ := Nat.exists_eq_succ_of_ne_zero (Nat.ne_zero_of_lt hlarger)
      rw [heq, heq]
    · obtain ⟨hlarger, hend⟩ := verdict hbodies budget (x :: found) more hmore
        (by rw [List.length_cons]; omega)
      refine ⟨fun larger hle => ?_, by rwa [heq]⟩
      obtain ⟨less, rfl⟩ := Nat.exists_eq_succ_of_ne_zero (Nat.ne_zero_of_lt hle)
      rw [heq, heq, hlarger less (by omega)]

end Searched

variable [DecidableEq ν]

/-- If a search has found everything that is reached, then looking for a name gives just what is
reached by it. -/
lemma reachable?_eq_ok_iff {all : List ν} (h : g.Searched start all [])
    (hall : g.reachable start = .ok all) (name : String) (x : ν) :
    g.reachable? start name = .ok (some x) ↔
    g.Reaches start (.named x) ∧ (g.define x).name = name := by
  rw [← h.mem_iff, reachable?, hall]
  simp only [bind, Except.bind, Except.ok.injEq]
  constructor
  · intro hfind
    exact ⟨List.mem_of_find?_eq_some hfind, by simpa using List.find?_some hfind⟩
  · rintro ⟨hx, rfl⟩
    -- The first rule of the name is the only one.
    cases hfind : all.find? fun y => (g.define y).name == (g.define x).name with
    | none => exact absurd (List.find?_eq_none.1 hfind x hx) (by simp)
    | some y =>
      have hname : (g.define y).name = (g.define x).name := by simpa using List.find?_some hfind
      rw [h.names_distinct y (List.mem_of_find?_eq_some hfind) x hx hname]

/-- The grammar of a start rule is what the start rule reaches. If the bodies of all named rules
that are reached are rules, then

* the search ends by itself: no larger budget makes a difference;
* it fails just if two different rules of one name are reached, and then it names such two rules;
* otherwise it finds each rule that is reached once, and nothing else: by its name each of them is
  found, and no name leads to anything else. -/
theorem reachable_exact (g : Grammar ν α) (start : Rule ν α)
    (hbodies : ∀ x, g.Reaches start (.named x) → ∃ body, (g.define x).body = .ok body) :
    (∀ budget, g.rules.length < budget →
      g.reachFrom budget [] start.references.reverse = g.reachable start) ∧
    ((∃ error, g.reachable start = .error error) ↔ ∃ name, g.Ambiguous start name) ∧
    (∀ error, g.reachable start = .error error →
      ∃ name, error = .duplicateName name ∧ g.Ambiguous start name) ∧
    ((∀ name, ¬ g.Ambiguous start name) →
      (∃ all, g.reachable start = .ok all ∧ all.Nodup ∧ ∀ x, x ∈ all ↔ g.Reaches start (.named x)) ∧
      (∃ names, g.reachableNames start = .ok names ∧ names.Pairwise (· < ·) ∧
        ∀ name, name ∈ names ↔ ∃ x, g.Reaches start (.named x) ∧ (g.define x).name = name) ∧
      ∀ name x, g.reachable? start name = .ok (some x) ↔
        g.Reaches start (.named x) ∧ (g.define x).name = name) := by
  obtain ⟨hlarger, hend⟩ := Searched.verdict hbodies (g.rules.length + 1) [] _ .initial
    (by rw [List.length_nil]; omega)
  change (∃ all, g.reachable start = .ok all ∧ g.Searched start all []) ∨
    (∃ name, g.reachable start = .error (.duplicateName name) ∧ g.Ambiguous start name) at hend
  refine ⟨fun budget hbudget => hlarger budget hbudget, ?_⟩
  rcases hend with ⟨all, hall, hs⟩ | ⟨name, herror, hname⟩
  · refine ⟨⟨?_, fun ⟨name, hname⟩ => absurd hname (hs.not_ambiguous name)⟩, ?_,
      fun _ => ⟨?_, ?_, ?_⟩⟩
    · rintro ⟨error, herror⟩
      cases hall.symm.trans herror
    · intro error herror
      cases hall.symm.trans herror
    · exact ⟨all, hall, hs.nodup, fun x => hs.mem_iff⟩
    · refine ⟨sorted (all.map fun x => (g.define x).name), by rw [reachableNames, hall]; rfl,
        pairwise_sorted _, fun name => ?_⟩
      simp only [mem_sorted, List.mem_map, hs.mem_iff]
    · exact reachable?_eq_ok_iff hs hall
  · refine ⟨⟨fun _ => ⟨name, hname⟩, fun _ => ⟨_, herror⟩⟩, fun error herror' => ?_,
      fun hnone => absurd hname (hnone name)⟩
    cases herror.symm.trans herror'
    exact ⟨name, rfl, hname⟩

/-- Two rules of one name, each of which refers to the other one: the first one only looks ahead for
it. -/
def twins : Grammar Bool Unit where
  rules := [false, true]
  mem_rules := by decide
  define second :=
    { name := "twin"
      body := .ok <| if second then .sequence [.literal "a", .named false]
        else .optional (.lookahead true (.named true)) }

end Grammar

namespace Program

/-- A list reaches objects, which may be lists, but not programs; and one of two twins reaches the
other one. -/
theorem reachable_exact_list :
    (∀ x, grammar.Reaches (.named .list) (.named x) → ∃ body, (grammar.define x).body = .ok body) ∧
    grammar.reachable? (.named .list) "object" = .ok (some .object) ∧
    grammar.Reaches (.named .list) (.named .object) ∧
    ¬ grammar.Reaches (.named .list) (.named .program) ∧
    (∀ x, Grammar.twins.Reaches (.named false) (.named x) →
      ∃ body, (Grammar.twins.define x).body = .ok body) ∧
    Grammar.twins.Ambiguous (.named false) "twin" ∧
    ∃ error, Grammar.twins.reachable (.named false) = .error error := by
  have hbodies : ∀ x, grammar.Reaches (.named .list) (.named x) →
      ∃ body, (grammar.define x).body = .ok body := fun x _ => ⟨body x, rfl⟩
  have htwinBodies : ∀ x, Grammar.twins.Reaches (.named false) (.named x) →
      ∃ body, (Grammar.twins.define x).body = .ok body := fun _ _ => ⟨_, rfl⟩
  have hdistinct : ∀ name, ¬ grammar.Ambiguous (.named .list) name := by
    rintro name ⟨x, y, hne, -, -, hx, hy⟩
    have hnames : x.name = y.name := hx.trans hy.symm
    exact hne (Option.some.inj
      ((Phrase.ofName?_name x).symm.trans (hnames ▸ Phrase.ofName?_name y)))
  have htwins : Grammar.twins.Ambiguous (.named false) "twin" := by
    refine ⟨false, true, by decide, .refl, ?_, rfl, rfl⟩
    exact .head (.body rfl)
      (.head (.child List.mem_cons_self) (.single (.child List.mem_cons_self)))
  obtain ⟨-, -, -, hfound⟩ := Grammar.reachable_exact grammar (.named .list) hbodies
  obtain ⟨-, -, hnamed⟩ := hfound hdistinct
  have hobject : grammar.reachable? (.named .list) "object" = .ok (some .object) := by
    decide +kernel
  have hprogram : grammar.reachable? (.named .list) "program" = .ok none := by decide +kernel
  refine ⟨hbodies, hobject, ((hnamed _ _).1 hobject).1, fun hreach => ?_, htwinBodies, htwins, ?_⟩
  · cases hprogram.symm.trans ((hnamed "program" .program).2 ⟨hreach, rfl⟩)
  · exact (Grammar.reachable_exact Grammar.twins (.named false) htwinBodies).2.1.2 ⟨"twin", htwins⟩

end Program

end Packrat
