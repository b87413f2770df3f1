import Mathlib.Algebra.Ring.Nat
import Mathlib.Data.List.Forall2
import Packrat.Program.Outline
import Packrat.Proofs.Program.WellFormed
import Packrat.Proofs.Text.Quoted
import Packrat.Proofs.Text.Split
set_option autoImplicit false
set_option relaxedAutoImplicit false

/-!
# The lines of an outline

An outline has one entry for every node, in the order in which they are met when each node comes
before those below it. An entry is indented by two spaces for every level, and what follows is no
space.

As a text, an outline is split into its entries at its line feeds, unless the pattern of a regular
expression has some: patterns are shown as they are, so each line feed in them breaks an entry. All
other texts in the tree of a program are quoted or have no line feeds.

## Main definitions

* `Packrat.Program.Node.parts` — what is directly below a node.
* `Packrat.Program.Node.Everywhere` — all nodes of a tree have a property.
* `Packrat.Program.Node.preorder` — the nodes of a tree with their depths, each before those below
  it.
* `Packrat.Program.Node.Shows` — a line shows a node at its depth.
* `Packrat.Program.Node.Legible` — what a node holds can be told from its line.

## Main results

* `Packrat.Program.Node.induction_parts` — induction on trees, one step for all kinds of nodes.
* `Packrat.Program.Node.forall₂_outlineAt` — each entry shows its node.
* `Packrat.Program.IsObject.legible`, `Packrat.Program.legible_of_parse` — objects and programs are
  legible.
* `Packrat.Program.outline_of_parse` — the entries and the lines of the outline of an accepted
  program.
-/

namespace Packrat.Program

namespace Node

/-! ## Trees by their parts -/

/-- What is directly below a node, and how it is labelled. -/
def parts : Node → List (String × Node)
  | .keyValue key value => [("key: ", key), ("value: ", value)]
  | .range start stop _ => [("start: ", start), ("end: ", stop)]
  | .hash nodes | .list nodes | .program nodes => nodes.map fun n => ("", n)
  | .comment _ | .nil | .bool _ | .integer _ _ | .decimal _ _ | .character _ | .string _
  | .regex _ => []

mutual

/-- What is true of every node whose parts it is true of is true of all nodes. -/
theorem induction_parts {P : Node → Prop} (step : ∀ n : Node, (∀ p ∈ n.parts, P p.2) → P n) :
    ∀ n : Node, P n
  | .keyValue key value | .range key value _ => step _ (by
    simpa [parts] using ⟨induction_parts step key, induction_parts step value⟩)
  | .hash nodes | .list nodes | .program nodes => step _ (by
    simpa [parts] using forall_mem_parts step nodes)
  | .comment _ | .nil | .bool _ | .integer _ _ | .decimal _ _ | .character _ | .string _
  | .regex _ => step _ nofun

/-- What is true of every node whose parts it is true of is true of all nodes of a row. -/
theorem forall_mem_parts {P : Node → Prop} (step : ∀ n : Node, (∀ p ∈ n.parts, P p.2) → P n) :
    ∀ nodes : List Node, ∀ n ∈ nodes, P n
  | [] => nofun
  | n :: nodes => List.forall_mem_cons.2 ⟨induction_parts step n, forall_mem_parts step nodes⟩

end

/-- All nodes of a tree have a property. -/
inductive Everywhere (P : Node → Prop) : Node → Prop
  | mk {n : Node} (here : P n) (below : ∀ p ∈ n.parts, Everywhere P p.2) : Everywhere P n

/-- The nodes of a tree with their depths, each before those below it. -/
def preorder (depth : Nat) : Node → List (Nat × Node)
  | .keyValue key value =>
    (depth, .keyValue key value) :: (key.preorder (depth + 1) ++ value.preorder (depth + 1))
  | .range start stop exclusivity =>
    (depth, .range start stop exclusivity) ::
    (start.preorder (depth + 1) ++ stop.preorder (depth + 1))
  | .hash nodes => (depth, .hash nodes) :: preorderAll (depth + 1) nodes
  | .list nodes => (depth, .list nodes) :: preorderAll (depth + 1) nodes
  | .program nodes => (depth, .program nodes) :: preorderAll (depth + 1) nodes
  | n => [(depth, n)]
where
  /-- The nodes of several trees, one after the other. -/
  preorderAll (depth : Nat) : List Node → List (Nat × Node)
    | [] => []
    | n :: nodes => n.preorder depth ++ preorderAll depth nodes

/-- The nodes of several trees are those of each of them, in order. -/
lemma preorderAll_eq (depth : Nat) (nodes : List Node) :
    preorder.preorderAll depth nodes = nodes.flatMap (preorder depth) := by
  induction nodes with
  | nil => rfl
  | cons n nodes ih => rw [preorder.preorderAll, ih, List.flatMap_cons]

/-- The nodes of a tree are its root and the nodes of its parts, one level further down. -/
lemma preorder_eq (depth : Nat) (n : Node) :
    n.preorder depth = (depth, n) :: n.parts.flatMap fun p => p.2.preorder (depth + 1) := by
  cases n <;> simp [preorder, parts, preorderAll_eq, List.flatMap_map]

/-- What is true of all nodes of a tree is true of those that are listed with their depths. -/
lemma Everywhere.preorder {P : Node → Prop} {n : Node} (h : n.Everywhere P) (depth : Nat) :
    ∀ p ∈ n.preorder depth, P p.2 := by
  induction h generalizing depth with
  | mk here below ih =>
    rw [preorder_eq]
    refine List.forall_mem_cons.2 ⟨here, fun p hp => ?_⟩
    obtain ⟨part, hpart, hp⟩ := List.mem_flatMap.1 hp
    exact ih part hpart (depth + 1) p hp

/-! ## Entries -/

/-- The line of a node at the given level of indentation, with the given label. -/
def lineAt (level : Nat) (label : String) (n : Node) : String :=
  String.ofList (List.replicate (2 * level) ' ') ++ label ++ n.headline

/-- The outlines of several trees are those of each of them, in order. -/
lemma outlineAll_eq (level : Nat) (nodes : List Node) :
    outlineAt.outlineAll level nodes = nodes.flatMap (outlineAt level "") := by
  induction nodes with
  | nil => rfl
  | cons n nodes ih => rw [outlineAt.outlineAll, ih, List.flatMap_cons]

/-- An outline is the line of the node and the outlines of its parts. -/
lemma outlineAt_eq (level : Nat) (label : String) (n : Node) :
    n.outlineAt level label = n.lineAt level label :: n.parts.flatMap fun p =>
      p.2.outlineAt (level + 1) p.1 := by
  cases n <;> simp [outlineAt, lineAt, parts, outlineAll_eq, List.flatMap_map]

/-- The labels in an outline; most nodes have none. -/
def labels : List String := ["", "key: ", "value: ", "start: ", "end: "]

/-- A label is one of five. -/
lemma mem_labels {label : String} : label ∈ labels ↔
    label = "" ∨ label = "key: " ∨ label = "value: " ∨ label = "start: " ∨ label = "end: " := by
  simp [labels]

/-- The parts of a node are labelled with the labels in an outline. -/
lemma label_mem_labels {n : Node} {p : String × Node} (h : p ∈ n.parts) : p.1 ∈ labels := by
  cases n <;> simp only [parts, List.mem_cons, List.mem_map, List.not_mem_nil, or_false] at h
  case keyValue => rcases h with rfl | rfl <;> simp [labels]
  case range => rcases h with rfl | rfl <;> simp [labels]
  all_goals
    obtain ⟨_, -, rfl⟩ := h
    simp [labels]

/-- A line shows a node at its depth: two spaces for every level, and behind them no further one,
but a label or none, and what is said about the node. -/
def Shows (p : Nat × Node) (line : List Char) : Prop :=
  ∃ label ∈ labels, line = List.replicate (2 * p.1) ' ' ++ (label.toList ++ p.2.headline.toList) ∧
    ∃ c ∈ (label.toList ++ p.2.headline.toList).head?, c ≠ ' '

/-- The letters with which the line of a node begins. -/
def initials : Node → List Char
  | .comment _ => ['C', 'o']
  | .nil => ['N', 'i']
  | .bool _ => ['B', 'o']
  | .integer _ _ => ['I', 'n']
  | .decimal _ _ => ['D', 'e']
  | .character _ => ['C', 'h']
  | .string _ => ['S', 't']
  | .regex _ => ['R', 'e']
  | .keyValue _ _ => ['K', 'e']
  | .range _ _ _ => ['R', 'a']
  | .hash _ => ['H', 'a']
  | .list _ => ['L', 'i']
  | .program _ => ['P', 'r']

/-- What is said about a node begins with its letters. -/
lemma exists_headline (n : Node) : ∃ more, n.headline.toList = n.initials ++ more := by
  cases n with
  | bool value => cases value <;> exact ⟨_, rfl⟩
  | range start stop exclusivity => cases exclusivity <;> simp [headline, initials]
  | _ => simp [headline, initials, String.toList_append]

/-- What is behind the indentation of a line begins with a letter. -/
lemma head?_label_append {label : String} (h : label ∈ labels) (n : Node) :
    ∃ c ∈ (label.toList ++ n.headline.toList).head?, c ≠ ' ' := by
  obtain ⟨more, hmore⟩ := n.exists_headline
  rcases mem_labels.1 h with rfl | rfl | rfl | rfl | rfl
  · rw [hmore]
    cases n <;> exact ⟨_, rfl, by decide⟩
  all_goals exact ⟨_, rfl, by decide⟩

/-- The line of a node shows it at its level. -/
lemma shows_lineAt {label : String} (h : label ∈ labels) (level : Nat) (n : Node) :
    Shows (level, n) (n.lineAt level label).toList := by
  refine ⟨label, h, ?_, head?_label_append h n⟩
  rw [lineAt, String.toList_append, String.toList_append, String.toList_ofList, List.append_assoc]

/-- Each entry of an outline shows its node.

**Proof sketch.** Induction on the tree: the first entry is that of the node itself, and the others
are those of its parts, one level further in. -/
theorem forall₂_outlineAt (n : Node) (level : Nat) {label : String} (h : label ∈ labels) :
    List.Forall₂ Shows (n.preorder level) ((n.outlineAt level label).map String.toList) := by
  induction n using induction_parts generalizing level label with
  | step n ih =>
    rw [preorder_eq, outlineAt_eq, List.map_cons, List.map_flatMap]
    refine .cons (shows_lineAt h level n)
      (List.rel_flatMap (R := fun p q => p = q ∧ p ∈ n.parts) ?_ ?_)
    · exact List.forall₂_same.2 fun p hp => ⟨rfl, hp⟩
    · rintro p _ ⟨rfl, hp⟩
      exact ih p hp (level + 1) (label_mem_labels hp)

/-- Each entry of the outline of a tree shows its node. -/
lemma forall₂_outline (n : Node) :
    List.Forall₂ Shows (n.preorder 0) (n.outline.map String.toList) :=
  n.forall₂_outlineAt 0 (by simp [labels])

/-! ## Legible trees -/

/-- What a node holds can be told from its line: a number does not begin with a further sign, a
pattern has no slash, and there is only one kind of third point. -/
def Legible : Node → Prop
  | .integer digits sign | .decimal digits sign =>
    IsSign sign ∧ Unsigned digits.toList ∧ WithinLine digits.toList
  | .regex pattern => '/' ∉ pattern.toList
  | .range _ _ exclusivity => exclusivity = none ∨ exclusivity = some "."
  | _ => True

/-- The number of line feeds in the pattern of a regular expression, which are shown as they are. -/
def breaks : Node → Nat
  | .regex pattern => pattern.toList.count '\n'
  | _ => 0

/-- A sign has no line feeds. -/
lemma count_eq_zero_of_isSign {sign : Option String} (h : IsSign sign) :
    (sign.getD "").toList.count '\n' = 0 := by
  rcases h with rfl | rfl | rfl <;> rfl

/-- No line feeds are shown but those of patterns. -/
lemma count_headline {n : Node} (h : n.Legible) : n.headline.toList.count '\n' = n.breaks := by
  have hquote : ∀ s, (quote s).toList.count '\n' = 0 := fun s =>
    List.count_eq_zero.2 (newline_not_mem_quote s)
  cases n with
  | comment text | character text | string text =>
    rw [headline, String.toList_append, List.count_append, hquote]
    rfl
  | integer digits sign | decimal digits sign =>
    obtain ⟨hsign, -, hdigits⟩ := h
    have hnone : digits.toList.count '\n' = 0 :=
      List.count_eq_zero.2 fun hmem => absurd (hdigits _ hmem) (by decide)
    rw [headline, String.toList_append, String.toList_append, List.count_append, List.count_append,
      count_eq_zero_of_isSign hsign, hnone]
    rfl
  | regex pattern =>
    rw [headline, String.toList_append, String.toList_append, List.count_append, List.count_append]
    simp [breaks]
  | bool value => cases value <;> rfl
  | range start stop exclusivity => cases exclusivity <;> simp [headline, breaks]
  | _ => simp [headline, breaks]

/-- A line that shows a legible node has the line feeds of its pattern only. -/
lemma Shows.count {p : Nat × Node} {line : List Char} (h : Shows p line) (hp : p.2.Legible) :
    line.count '\n' = p.2.breaks := by
  obtain ⟨label, hlabel, rfl, -⟩ := h
  have hnone : label.toList.count '\n' = 0 := by
    rcases mem_labels.1 hlabel with rfl | rfl | rfl | rfl | rfl <;> rfl
  rw [List.count_append, List.count_append, hnone, count_headline hp, List.count_replicate]
  simp

/-- A legible outline is split into its entries, and once more for each line feed in a pattern. -/
lemma length_flatMap_splitOn {ps : List (Nat × Node)} {lines : List (List Char)}
    (h : List.Forall₂ Shows ps lines) (hlegible : ∀ p ∈ ps, p.2.Legible) :
    (lines.flatMap (List.splitOn '\n')).length = ps.length + (ps.map fun p => p.2.breaks).sum := by
  induction h with
  | nil => rfl
  | @cons p line ps lines hshows _ ih =>
    have hline : (line.splitOn '\n').length = p.2.breaks + 1 := by
      rw [length_splitOn, hshows.count (hlegible p List.mem_cons_self)]
    have hlines := ih fun q hq => hlegible q (List.mem_cons_of_mem p hq)
    rw [List.flatMap_cons, List.length_append, hline, hlines, List.length_cons, List.map_cons,
      List.sum_cons]
    omega

/-- Without line feeds in patterns, entries are not split. -/
lemma flatMap_splitOn_of_breaks {ps : List (Nat × Node)} {lines : List (List Char)}
    (h : List.Forall₂ Shows ps lines)
    (hlegible : ∀ p ∈ ps, p.2.Legible) (hbreaks : ∀ p ∈ ps, p.2.breaks = 0) :
    lines.flatMap (List.splitOn '\n') = lines := by
  induction h with
  | nil => rfl
  | @cons p line ps lines hshows _ ih =>
    obtain ⟨hp, hps⟩ := List.forall_mem_cons.1 hlegible
    obtain ⟨hnone, hothers⟩ := List.forall_mem_cons.1 hbreaks
    have hline : '\n' ∉ line := List.count_eq_zero.1 ((hshows.count hp).trans hnone)
    rw [List.flatMap_cons, List.splitOn_eq_singleton hline, ih hps hothers, List.singleton_append]

/-- An outline is split into what its entries are split into. -/
lemma splitOn_outlineText (n : Node) :
    n.outlineText.toList.splitOn '\n' =
      (n.outline.map String.toList).flatMap (List.splitOn '\n') := by
  rw [outlineText, String.toList_intercalate]
  refine splitOn_intercalate_eq_flatMap '\n' ?_
  rw [outline, outlineAt_eq]
  simp

/-- The lines of the outline of a legible tree show its nodes, one each, just if there are no line
feeds in patterns. -/
theorem forall₂_splitOn_iff {n : Node} (h : n.Everywhere Legible) :
    List.Forall₂ Shows (n.preorder 0) (n.outlineText.toList.splitOn '\n') ↔
      ∀ p ∈ n.preorder 0, p.2.breaks = 0 := by
  have hentries := n.forall₂_outline
  have hlength := length_flatMap_splitOn hentries (h.preorder 0)
  rw [splitOn_outlineText]
  constructor
  · intro hlines p hp
    have hsum : ((n.preorder 0).map fun p => p.2.breaks).sum = 0 := by
      have hsame := hlines.length_eq
      omega
    exact List.sum_eq_zero_iff_forall_eq_nat.1 hsum _ (List.mem_map_of_mem hp)
  · intro hbreaks
    rw [flatMap_splitOn_of_breaks hentries (h.preorder 0) hbreaks]
    exact hentries

end Node

/-! ## Outlines of programs -/

/-- The line of a simple object tells what it holds. -/
lemma IsSimple.legible_here {v : Node} (h : IsSimple v) : v.Legible := by
  cases h with
  | @integer digits sign hdigits hsign =>
    have hunsigned := hdigits.unsigned []
    rw [List.append_nil] at hunsigned
    rw [Node.Legible, String.toList_ofList]
    exact ⟨hsign, hunsigned, withinLine_of_wordSet hdigits.wordSet⟩
  | @decimal whole fraction sign hwhole hfraction hsign =>
    have hinside : WithinLine whole := by
      rcases hwhole with rfl | hwhole
      · decide
      · exact withinLine_of_wordSet hwhole.wordSet
    have hpoint : WithinLine ['.'] := by decide
    rw [Node.Legible, String.toList_ofList]
    refine ⟨hsign, unsigned_point hwhole fraction, withinLine_append hinside ?_⟩
    exact withinLine_append hpoint (withinLine_of_wordSet hfraction.wordSet)
  | regex hpattern => exact hpattern
  | nil | bool | character | string => trivial

/-- Simple objects are legible. -/
lemma IsSimple.legible {v : Node} (h : IsSimple v) : v.Everywhere Node.Legible := by
  refine ⟨h.legible_here, ?_⟩
  cases h <;> exact nofun

/-- The ends of ranges are legible. -/
lemma IsEndpoint.legible {v : Node} (h : IsEndpoint v) : v.Everywhere Node.Legible := by
  cases h with
  | integer h | character h => exact h.legible

/-- Objects are legible.

**Proof sketch.** Induction on the object, one case for each form. -/
theorem IsObject.legible {v : Node} (h : IsObject v) : v.Everywhere Node.Legible := by
  induction h with
  | simple h => exact h.legible
  | keyValue hkey _ ih => exact ⟨trivial, by simpa [Node.parts] using ⟨hkey.legible, ih⟩⟩
  | range hstart hstop hpoint =>
    exact ⟨hpoint, by simpa [Node.parts] using ⟨hstart.legible, hstop.legible⟩⟩
  | hash _ _ ih | list _ ih => exact ⟨trivial, by simpa [Node.parts] using ih⟩

/-- Statements are legible. -/
lemma IsStatement.legible {v : Node} (h : IsStatement v) : v.Everywhere Node.Legible := by
  cases h with
  | comment htext => exact ⟨trivial, nofun⟩
  | object h => exact h.legible

/-- The trees of accepted programs are legible. -/
lemma legible_of_parse {settings : Settings} {text : String} {result : Value Node}
    (h : grammar.parse settings (.named .program) text = .ok result) :
    ∃ statements, result = .object (.program statements) ∧
      (Node.program statements).Everywhere Node.Legible := by
  obtain ⟨statements, rfl, hread⟩ := statementsAt_of_parse h
  refine ⟨statements, rfl, trivial, ?_⟩
  obtain rfl : (statementsAt text.toList).1 = statements := congrArg Prod.fst hread
  simpa [Node.parts] using fun v hv => (forall_mem_statementsAt text.toList v hv).legible

/-- The outline of an accepted program.

* It has one entry for every node of the program, each before those below it and indented by two
  spaces for every level.
* As a text, it has one more line for each line feed in the pattern of a regular expression.
* So its lines show the nodes of the program, one each, just if there are no line feeds in patterns.

**Proof sketch.** Each entry shows its node, and the other texts in a program have no line feeds
when they are shown. -/
theorem outline_of_parse {settings : Settings} {text : String} {result : Value Node}
    (h : grammar.parse settings (.named .program) text = .ok result) :
    ∃ statements, result = .object (.program statements) ∧
      List.Forall₂ Node.Shows ((Node.program statements).preorder 0)
        ((Node.program statements).outline.map String.toList) ∧
      ((Node.program statements).outlineText.toList.splitOn '\n').length =
        ((Node.program statements).preorder 0).length +
          (((Node.program statements).preorder 0).map fun p => p.2.breaks).sum ∧
      (List.Forall₂ Node.Shows ((Node.program statements).preorder 0)
          ((Node.program statements).outlineText.toList.splitOn '\n') ↔
        ∀ depth pattern, (depth, .regex pattern) ∈ (Node.program statements).preorder 0 →
          '\n' ∉ pattern.toList) := by
  obtain ⟨statements, rfl, hlegible⟩ := legible_of_parse h
  have hentries := (Node.program statements).forall₂_outline
  refine ⟨statements, rfl, hentries, ?_, ?_⟩
  · rw [Node.splitOn_outlineText]
    exact Node.length_flatMap_splitOn hentries (hlegible.preorder 0)
  · rw [Node.forall₂_splitOn_iff hlegible]
    constructor
    · intro hbreaks depth pattern hmem
      exact List.count_eq_zero.1 (hbreaks _ hmem)
    · rintro hpatterns ⟨depth, n⟩ hmem
      cases n with
      | regex pattern => exact List.count_eq_zero.2 (hpatterns depth pattern hmem)
      | _ => rfl

/-- A pair in a hash, a range, and a regular expression without a line break. -/
theorem outline_of_parse_hash :
    grammar.parse {} (.named .program) "\x7b'a\n': 1\x7d;1...\x60z; /x/" = .ok (.object (.program
        [.hash [.keyValue (.string "a\n") (.integer "1" none)],
          .range (.integer "1" none) (.character "z") (some "."), .regex "x"])) ∧
      ∃ statements, (Value.object (.program
          [.hash [.keyValue (.string "a\n") (.integer "1" none)],
            .range (.integer "1" none) (.character "z") (some "."), .regex "x"]) : Value Node) =
          .object (.program statements) ∧
        List.Forall₂ Node.Shows ((Node.program statements).preorder 0)
          ((Node.program statements).outline.map String.toList) := by
  have h : Accepts .program "\x7b'a\n': 1\x7d;1...\x60z; /x/".toList (.program
      [.hash [.keyValue (.string "a\n") (.integer "1" none)],
        .range (.integer "1" none) (.character "z") (some "."), .regex "x"]) := by decide +kernel
  rw [Accepts, String.ofList_toList] at h
  obtain ⟨statements, hresult, hentries, -⟩ := outline_of_parse h
  exact ⟨h, statements, hresult, hentries⟩

/-- A regular expression with a line break in it takes two lines of the outline: there are two
nodes, and three lines. -/
theorem regex_on_two_lines :
    grammar.parse {} (.named .program) "/a\nb/" = .ok (.object (.program [.regex "a\nb"])) ∧
      ((Node.program [.regex "a\nb"]).preorder 0).length = 2 ∧
      ((Node.program [.regex "a\nb"]).outlineText.toList.splitOn '\n').length = 3 ∧
      ¬ List.Forall₂ Node.Shows ((Node.program [.regex "a\nb"]).preorder 0)
        ((Node.program [.regex "a\nb"]).outlineText.toList.splitOn '\n') := by
  have h : Accepts .program "/a\nb/".toList (.program [.regex "a\nb"]) := by decide +kernel
  rw [Accepts, String.ofList_toList] at h
  have hnodes : ((Node.program [.regex "a\nb"]).preorder 0).length = 2 := by decide +kernel
  have hlines : ((Node.program [.regex "a\nb"]).outlineText.toList.splitOn '\n').length = 3 := by
    decide +kernel
  refine ⟨h, hnodes, hlines, fun hshows => ?_⟩
  have hlength := hshows.length_eq
  omega

end Packrat.Program
