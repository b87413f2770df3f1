import Packrat.Proofs.Program.Outline
set_option autoImplicit false
set_option relaxedAutoImplicit false

/-!
# Reading outlines back

No two programs have the same outline. The first two letters of a line tell the kind of its node,
and the rest of the line what the node holds; only the pattern of a regular expression may go on on
further lines, and it ends with the next slash. The lines of the parts follow, and the first line
that is not further in ends them.

## Main definitions

* `Packrat.Program.Node.hollow`, `Packrat.Program.Node.withParts` — a node without its parts, and
  with parts.
* `Packrat.Program.Node.block` — an outline with a line feed in front of every line.
* `Packrat.Program.Node.Closes` — what follows does not lie below the given level.

## Main results

* `Packrat.Program.Node.headline_unique` — the end of what a line says can be told, and all that the
  node holds.
* `Packrat.Program.Node.readBack` — the end of an outline can be told, and the whole tree.
* `Packrat.Program.eq_of_outlineText` — accepted programs with the same outline are the same.
-/

namespace Packrat.Program

namespace Node

/-! ## Nodes without their parts -/

/-- A node without its parts. -/
def hollow : Node → Node
  | .keyValue _ _ => .keyValue .nil .nil
  | .range _ _ exclusivity => .range .nil .nil exclusivity
  | .hash _ => .hash []
  | .list _ => .list []
  | .program _ => .program []
  | n => n

/-- A node with the given parts in place of its own. -/
def withParts : Node → List (String × Node) → Node
  | .keyValue _ _, [(_, key), (_, value)] => .keyValue key value
  | .range _ _ exclusivity, [(_, start), (_, stop)] => .range start stop exclusivity
  | .hash _, ps => .hash (ps.map Prod.snd)
  | .list _, ps => .list (ps.map Prod.snd)
  | .program _, ps => .program (ps.map Prod.snd)
  | n, _ => n

/-- A node is put together again from what it holds and its parts. -/
lemma withParts_hollow (n : Node) : n.hollow.withParts n.parts = n := by
  cases n <;> simp [hollow, parts, withParts, Function.comp_def]

/-- A node is what it holds and its parts. -/
lemma eq_of_hollow {n m : Node} (h : n.hollow = m.hollow) (hparts : n.parts = m.parts) : n = m := by
  rw [← n.withParts_hollow, ← m.withParts_hollow, h, hparts]

/-! ## Reading a line -/

section

variable {n m : Node} {r s : List Char}

/-- The first letters of a line tell the kind of its node. -/
lemma initials_unique (h : n.headline.toList ++ r = m.headline.toList ++ s) :
    n.initials = m.initials := by
  obtain ⟨more, hmore⟩ := n.exists_headline
  obtain ⟨more', hmore'⟩ := m.exists_headline
  have hlength : ∀ n : Node, n.initials.length = 2 := by
    intro n
    cases n <;> rfl
  rw [hmore, hmore', List.append_assoc, List.append_assoc] at h
  exact (List.append_inj h ((hlength n).trans (hlength m).symm)).1

/-- The node, without its parts, of which a line tells. -/
def ofHeadline : List Char → Node
  -- As many characters are dropped as there are left of the word and the space behind it.
  | 'C' :: 'o' :: cs => .comment (unquote (cs.drop 6))
  | 'N' :: 'i' :: _ => .nil
  | 'B' :: 'o' :: cs => .bool (cs == ['o', 'l', ' ', 't', 'r', 'u', 'e'])
  | 'I' :: 'n' :: cs => .integer (String.ofList (signAt (cs.drop 6)).2) (signAt (cs.drop 6)).1
  | 'D' :: 'e' :: cs => .decimal (String.ofList (signAt (cs.drop 6)).2) (signAt (cs.drop 6)).1
  | 'C' :: 'h' :: cs => .character (unquote (cs.drop 8))
  | 'S' :: 't' :: cs => .string (unquote (cs.drop 5))
  | 'R' :: 'e' :: cs => .regex (String.ofList (cs.drop 5).dropLast)
  | 'K' :: 'e' :: _ => .keyValue .nil .nil
  | 'R' :: 'a' :: cs =>
    .range .nil .nil (if cs = ['n', 'g', 'e', ' ', '.', '.'] then none else some ".")
  | 'H' :: 'a' :: _ => .hash []
  | 'L' :: 'i' :: _ => .list []
  | 'P' :: 'r' :: _ => .program []
  | _ => .nil

/-- The sign and the digits of a number can be told apart. -/
lemma signAt_literal {digits : String} {sign : Option String} (hsign : IsSign sign)
    (hdigits : Unsigned digits.toList) :
    signAt ((sign.getD "").toList ++ digits.toList) = (sign, digits.toList) := by
  have htext : SignText sign (sign.getD "").toList := by
    rcases hsign with rfl | rfl | rfl
    exacts [.none, .plus, .minus]
  exact signAt_append htext hdigits

/-- A line tells what its node holds. -/
lemma ofHeadline_headline (h : n.Legible) : ofHeadline n.headline.toList = n.hollow := by
  cases n with
  | comment text | character text | string text =>
    rw [headline, String.toList_append]
    exact congrArg _ (unquote_quote text)
  | bool value => cases value <;> rfl
  | integer digits sign | decimal digits sign =>
    obtain ⟨hsign, hunsigned, -⟩ := h
    have hread := signAt_literal hsign hunsigned
    simp [headline, String.toList_append, ofHeadline, hollow, hread]
  | regex pattern => simp [headline, String.toList_append, ofHeadline, hollow]
  | range start stop exclusivity => rcases h with rfl | rfl <;> simp [headline, ofHeadline, hollow]
  | _ => simp [headline, ofHeadline, hollow]

/-- Only patterns are shown on several lines. -/
lemma newline_not_mem_headline (h : n.Legible) (hkind : n.initials ≠ ['R', 'e']) :
    '\n' ∉ n.headline.toList := by
  rw [← List.count_eq_zero, count_headline h]
  cases n with
  | regex pattern => exact absurd rfl hkind
  | _ => rfl

/-- Only the line of a pattern begins with its letters. -/
lemma exists_regex (h : n.initials = ['R', 'e']) : ∃ pattern, n = .regex pattern := by
  cases n with
  | regex pattern => exact ⟨pattern, rfl⟩
  | _ => simp [initials] at h

/-- Where a line ends, the text ends or a line feed follows. A pattern ends with the next slash, and
what is said about other nodes has no line feeds. -/
lemma headline_unique (hn : n.Legible) (hm : m.Legible) (hr : ∀ c ∈ r.head?, c = '\n')
    (hs : ∀ c ∈ s.head?, c = '\n')
    (h : n.headline.toList ++ r = m.headline.toList ++ s) : n.hollow = m.hollow ∧ r = s := by
  have hkind := initials_unique h
  by_cases hregex : n.initials = ['R', 'e']
  · obtain ⟨pattern, rfl⟩ := exists_regex hregex
    obtain ⟨pattern', rfl⟩ := exists_regex (hkind.symm.trans hregex)
    have hcut : pattern.toList ++ '/' :: r = pattern'.toList ++ '/' :: s := by
      simpa [headline, String.toList_append] using h
    obtain ⟨hpattern, hrest⟩ :=
      split_unique (bne_of_not_mem hn) (bne_of_not_mem hm) (by simp) (by simp) hcut
    rw [String.toList_inj.1 hpattern]
    exact ⟨rfl, (List.cons.inj hrest).2⟩
  · have hend : ∀ {cs : List Char}, (∀ c ∈ cs.head?, c = '\n') →
        ∀ c ∈ cs.head?, (c != '\n') = false :=
      fun hcs c hc => by simpa using hcs c hc
    obtain ⟨hline, hrest⟩ := split_unique (bne_of_not_mem (newline_not_mem_headline hn hregex))
      (bne_of_not_mem (newline_not_mem_headline hm (hkind ▸ hregex))) (hend hr) (hend hs) h
    rw [← ofHeadline_headline hn, ← ofHeadline_headline hm, hline]
    exact ⟨rfl, hrest⟩

/-- The label with which a line begins. -/
def labelOf : List Char → String
  | 'k' :: _ => "key: "
  | 'v' :: _ => "value: "
  | 's' :: _ => "start: "
  | 'e' :: _ => "end: "
  | _ => ""

/-- Labels begin with a small letter of their own, and what is said about nodes with a capital. -/
lemma labelOf_append {label : String} (h : label ∈ labels) (n : Node) (r : List Char) :
    labelOf (label.toList ++ (n.headline.toList ++ r)) = label := by
  obtain ⟨more, hmore⟩ := n.exists_headline
  rcases mem_labels.1 h with rfl | rfl | rfl | rfl | rfl
  · rw [hmore]
    cases n <;> rfl
  all_goals rfl

/-- The label of a line can be told, and what is behind it. -/
lemma label_unique {label label' : String} (hlabel : label ∈ labels) (hlabel' : label' ∈ labels)
    (h : label.toList ++ (n.headline.toList ++ r) = label'.toList ++ (m.headline.toList ++ s)) :
    label = label' ∧ n.headline.toList ++ r = m.headline.toList ++ s := by
  have hsame : label = label' := by
    rw [← labelOf_append hlabel n r, h, labelOf_append hlabel' m s]
  subst hsame
  exact ⟨rfl, List.append_cancel_left h⟩

end

/-! ## Reading outlines -/

/-- The outline of a labelled tree with a line feed in front of every line. -/
def block (level : Nat) (p : String × Node) : List Char :=
  (p.2.outlineAt level p.1).flatMap fun line => '\n' :: line.toList

/-- The outline of a labelled tree is the line of its node and the outlines of its parts, a level
further in. -/
lemma block_eq (level : Nat) (p : String × Node) :
    block level p = '\n' :: (List.replicate (2 * level) ' ' ++
      (p.1.toList ++ (p.2.headline.toList ++ p.2.parts.flatMap (block (level + 1))))) := by
  rw [block, outlineAt_eq, List.flatMap_cons, List.flatMap_assoc, lineAt, String.toList_append,
    String.toList_append, String.toList_ofList, List.cons_append, List.append_assoc,
    List.append_assoc]
  rfl

/-- A labelled tree in a legible outline. -/
def Placed (p : String × Node) : Prop := p.1 ∈ labels ∧ p.2.Everywhere Legible

/-- The node at the root of a labelled tree is legible. -/
lemma Placed.legible {p : String × Node} (h : Placed p) : p.2.Legible := by
  obtain ⟨-, hhere, -⟩ := h
  exact hhere

/-- The parts of a labelled tree are labelled trees as well. -/
lemma Placed.parts {p : String × Node} (h : Placed p) : ∀ q ∈ p.2.parts, Placed q := by
  obtain ⟨-, -, hbelow⟩ := h
  exact fun q hq => ⟨label_mem_labels hq, hbelow q hq⟩

/-- A line follows whose indentation is that of the given level. -/
def Begins (level : Nat) (r : List Char) : Prop :=
  ∃ c cs, c ≠ ' ' ∧ r = '\n' :: (List.replicate (2 * level) ' ' ++ c :: cs)

/-- What follows does not lie below the given level: it is nothing, or a line that is not indented
further. -/
def Closes (level : Nat) (r : List Char) : Prop := r = [] ∨ ∃ k ≤ level, Begins k r

section

variable {level : Nat} {r s : List Char} {ps qs : List (String × Node)}

/-- The outline of a labelled tree begins with a line at its level. -/
lemma Placed.begins {p : String × Node} (h : Placed p) (level : Nat) (r : List Char) :
    Begins level (block level p ++ r) := by
  obtain ⟨c, hc, hspace⟩ := head?_label_append h.1 p.2
  obtain ⟨cs, hcs⟩ := List.head?_eq_some_iff.1 hc
  refine ⟨c, cs ++ (p.2.parts.flatMap (block (level + 1)) ++ r), hspace, ?_⟩
  rw [block_eq, ← List.append_assoc p.1.toList, hcs]
  simp

/-- The level of a line can be told from its indentation. -/
lemma Begins.level_unique {k : Nat} (h : Begins level r) (h' : Begins k r) : level = k := by
  obtain ⟨c, cs, hc, rfl⟩ := h
  obtain ⟨d, ds, hd, heq⟩ := h'
  have hspaces : ∀ n, ∀ c ∈ List.replicate n ' ', (c == ' ') = true := fun n c hc => by
    simp [List.eq_of_mem_replicate hc]
  have hsplit :=
    split_unique (hspaces (2 * level)) (hspaces (2 * k)) (by simpa using hc) (by simpa using hd)
    (List.cons.inj heq).2
  have hlength := congrArg List.length hsplit.1
  simp only [List.length_replicate] at hlength
  omega

/-- Where the outlines at a level end, no line begins that is one level further in. -/
lemma Closes.not_begins (h : Closes level r) : ¬ Begins (level + 1) r := by
  intro hbegins
  rcases h with rfl | ⟨k, hk, h⟩
  · obtain ⟨c, cs, -, heq⟩ := hbegins
    cases heq
  · have hlevel := h.level_unique hbegins
    omega

/-- Where outlines end, the text does or a line feed follows. -/
lemma Closes.head? (h : Closes level r) : ∀ c ∈ r.head?, c = '\n' := by
  rcases h with rfl | ⟨k, -, c, cs, -, rfl⟩
  · nofun
  · simp

/-- Trees one level further in are not below each other. -/
lemma Closes.blocks (h : Closes level r) (hps : ∀ p ∈ ps, Placed p) :
    Closes (level + 1) (ps.flatMap (block (level + 1)) ++ r) := by
  cases ps with
  | nil =>
    rcases h with rfl | ⟨k, hk, h⟩
    · exact .inl rfl
    · exact .inr ⟨k, by omega, h⟩
  | cons p ps =>
    rw [List.flatMap_cons, List.append_assoc]
    exact .inr ⟨level + 1, le_rfl, (hps p List.mem_cons_self).begins (level + 1) _⟩

/-- The end of the outline of a labelled tree can be told, and the whole tree. -/
def ReadBack (p : String × Node) : Prop :=
  ∀ {q : String × Node} {level : Nat} {r s : List Char}, Placed p → Placed q → Closes level r →
    Closes level s →
    block level p ++ r = block level q ++ s → p = q ∧ r = s

/-- Trees are read back one after the other, until a line is not indented as far as they are. -/
lemma blocks_unique (hread : ∀ p ∈ ps, ReadBack p) (hps : ∀ p ∈ ps, Placed p)
    (hqs : ∀ q ∈ qs, Placed q) (hr : Closes level r) (hs : Closes level s)
    (h : ps.flatMap (block (level + 1)) ++ r = qs.flatMap (block (level + 1)) ++ s) :
    ps = qs ∧ r = s := by
  induction ps generalizing qs with
  | nil =>
    cases qs with
    | nil => exact ⟨rfl, h⟩
    | cons q qs =>
      rw [List.flatMap_nil, List.nil_append, List.flatMap_cons, List.append_assoc] at h
      exact absurd (h ▸ (hqs q List.mem_cons_self).begins (level + 1) _) hr.not_begins
  | cons p ps ih =>
    cases qs with
    | nil =>
      rw [List.flatMap_nil, List.nil_append, List.flatMap_cons, List.append_assoc] at h
      exact absurd (h ▸ (hps p List.mem_cons_self).begins (level + 1) _) hs.not_begins
    | cons q qs =>
      obtain ⟨hp, hps'⟩ := List.forall_mem_cons.1 hps
      obtain ⟨hq, hqs'⟩ := List.forall_mem_cons.1 hqs
      obtain ⟨hfirst, hothers⟩ := List.forall_mem_cons.1 hread
      rw [List.flatMap_cons, List.flatMap_cons, List.append_assoc, List.append_assoc] at h
      obtain ⟨rfl, hrest⟩ := hfirst hp hq (hr.blocks hps') (hs.blocks hqs') h
      obtain ⟨rfl, hrs⟩ := ih hothers hps' hqs' hrest
      exact ⟨rfl, hrs⟩

/-- The end of an outline can be told, and the whole tree.

**Proof sketch.** Induction on the tree. The indentation is that of the level; the label, what the
node holds and the end of its line can be told; and below it are the outlines of its parts, until a
line is not indented as far as they are. -/
theorem readBack (n : Node) : ∀ label, ReadBack (label, n) := by
  induction n using induction_parts with
  | step n ih =>
    intro label q level r s hp hq hr hs h
    rw [block_eq, block_eq, List.cons_append, List.cons_append, List.append_assoc,
      List.append_assoc, List.append_assoc, List.append_assoc, List.append_assoc,
      List.append_assoc] at h
    obtain ⟨hlabel, hline⟩ := label_unique hp.1 hq.1 (List.append_cancel_left (List.cons.inj h).2)
    obtain ⟨hhollow, hbelow⟩ := headline_unique hp.legible hq.legible (hr.blocks hp.parts).head?
      (hs.blocks hq.parts).head? hline
    obtain ⟨hparts, hrest⟩ := blocks_unique (fun p hp => ih p hp p.1) hp.parts hq.parts hr hs hbelow
    exact ⟨Prod.ext hlabel (eq_of_hollow hhollow hparts), hrest⟩

end

/-- Lines that are put together with a character between them have it in front of all but the
first. -/
lemma intercalate_cons_eq_flatMap (c : Char) (line : List Char) (lines : List (List Char)) :
    [c].intercalate (line :: lines) = line ++ lines.flatMap (c :: ·) := by
  induction lines generalizing line with
  | nil => rw [List.intercalate_singleton, List.flatMap_nil, List.append_nil]
  | cons next lines ih =>
    rw [List.intercalate_cons_cons, ih next, List.flatMap_cons, List.append_assoc]
    rfl

/-- The outline of a tree is its text, with a line feed in front. -/
lemma block_zero (n : Node) : block 0 ("", n) = '\n' :: n.outlineText.toList := by
  rw [outlineText, String.toList_intercalate, block, outline, outlineAt_eq, List.map_cons,
    List.flatMap_cons, List.cons_append, List.cons_inj_right]
  refine Eq.trans ?_ (intercalate_cons_eq_flatMap '\n' _ _).symm
  rw [List.flatMap_map]

/-- Legible trees with the same outline are the same. -/
theorem outlineText_injOn {n m : Node} (hn : n.Everywhere Legible) (hm : m.Everywhere Legible)
    (h : n.outlineText = m.outlineText) : n = m := by
  have hblock : block 0 ("", n) ++ [] = block 0 ("", m) ++ [] := by rw [block_zero, block_zero, h]
  have hnone : "" ∈ labels := List.mem_cons_self
  exact congrArg Prod.snd (n.readBack "" ⟨hnone, hn⟩ ⟨hnone, hm⟩ (.inl rfl) (.inl rfl) hblock).1

end Node

/-- Accepted programs with the same outline are the same.

**Proof sketch.** Their trees are legible, and a legible tree can be read back from its outline. -/
theorem eq_of_outlineText {settings settings' : Settings} {text text' : String} {n m : Node}
    (hn : grammar.parse settings (.named .program) text = .ok (.object n))
    (hm : grammar.parse settings' (.named .program) text' = .ok (.object m))
    (h : n.outlineText = m.outlineText) : n = m := by
  obtain ⟨_, ⟨⟩, hlegible⟩ := legible_of_parse hn
  obtain ⟨_, ⟨⟩, hlegible'⟩ := legible_of_parse hm
  exact Node.outlineText_injOn hlegible hlegible' h

/-- A pattern may look like further lines of the outline. -/
theorem eq_of_outlineText_lookalike :
    grammar.parse {} (.named .program) "[/a\n    Nil/, +1]" =
        .ok (.object (.program [.list [.regex "a\n    Nil", .integer "1" (some "+")]])) ∧
      grammar.parse {} (.named .program) "[ /a\n    Nil/,+1 ]" =
        .ok (.object (.program [.list [.regex "a\n    Nil", .integer "1" (some "+")]])) ∧
      (Node.program [.list [.regex "a\n    Nil", .integer "1" (some "+")]]) =
        .program [.list [.regex "a\n    Nil", .integer "1" (some "+")]] := by
  have h : Accepts .program "[/a\n    Nil/, +1]".toList
      (.program [.list [.regex "a\n    Nil", .integer "1" (some "+")]]) := by decide +kernel
  have hspaces : Accepts .program "[ /a\n    Nil/,+1 ]".toList
      (.program [.list [.regex "a\n    Nil", .integer "1" (some "+")]]) := by decide +kernel
  rw [Accepts, String.ofList_toList] at h hspaces
  exact ⟨h, hspaces, eq_of_outlineText h hspaces rfl⟩

end Packrat.Program
