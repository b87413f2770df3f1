import Packrat.Proofs.Program.Statement
set_option autoImplicit false
set_option relaxedAutoImplicit false

/-!
# Texts with other line breaks

A text whose line breaks are line feeds, and the same text with carriage returns in their place,
alone or in front of the line feeds. Whatever passes over characters, and whatever reads a simple
object, does the same in both: it never tells one kind of line break from the other, and never ends
within a line break.

## Main definitions

* `Packrat.Program.reline`, `Packrat.Program.relineText` — a text with other line breaks.
* `Packrat.Program.Node.reline` — a tree with other line breaks in its texts and patterns.
* `Packrat.Program.Relines` — a step over a text with other line breaks is the step over the text.

## Main results

* `Packrat.Program.many_reline` — many steps over a text with other line breaks.
* `Packrat.Program.relines_simpleAt` — simple objects in a text with other line breaks.
-/

namespace Packrat.Program

/-- The characters with another line break in place of each line feed. -/
def reline (b cs : List Char) : List Char := cs.flatMap fun c => if c = '\n' then b else [c]

/-- The text with another line break in place of each line feed. -/
def relineText (b : List Char) (text : String) : String := String.ofList (reline b text.toList)

/-- The tree with another line break in place of each line feed in a text or a pattern. -/
def Node.reline (b : List Char) : Node → Node
  | .string text => .string (relineText b text)
  | .regex pattern => .regex (relineText b pattern)
  | .keyValue key value => .keyValue (key.reline b) (value.reline b)
  | .range start stop exclusivity => .range (start.reline b) (stop.reline b) exclusivity
  | .hash pairs => .hash (relineAll pairs)
  | .list items => .list (relineAll items)
  | .program statements => .program (relineAll statements)
  | .comment text => .comment text
  | .nil => .nil
  | .bool value => .bool value
  | .integer digits sign => .integer digits sign
  | .decimal digits sign => .decimal digits sign
  | .character char => .character char
where
  /-- All of the trees. -/
  relineAll : List Node → List Node
    | [] => []
    | node :: nodes => node.reline b :: relineAll nodes

/-- A step over a text with other line breaks is the step over the text, if that is not longer than
the bound and has no other line breaks than line feeds. -/
def Relines {β : Type} (b : List Char) (f : β → β) (bound : Nat)
    (step : List Char → Option (β × List Char)) : Prop :=
  ∀ cs : List Char, cs.length ≤ bound → '\r' ∉ cs →
    step (reline b cs) = (step cs).map fun (v, rest) => (f v, reline b rest)

/-- All of the trees have other line breaks. -/
lemma relineAll_eq (b : List Char) (nodes : List Node) :
    Node.reline.relineAll b nodes = nodes.map (Node.reline b) := by
  induction nodes with
  | nil => rfl
  | cons node nodes ih => rw [Node.reline.relineAll, ih, List.map_cons]

section

variable {b cs rest : List Char} {n : Nat}

/-! ## Characters -/

/-- There are no line breaks in an empty text. -/
@[simp] lemma reline_nil : reline b [] = [] := rfl

/-- Texts one behind the other have other line breaks each. -/
lemma reline_append (as cs : List Char) :
    reline b (as ++ cs) = reline b as ++ reline b cs := List.flatMap_append

/-- A line feed becomes the other line break. -/
lemma reline_newline (cs : List Char) : reline b ('\n' :: cs) = b ++ reline b cs := rfl

/-- Any other character stays as it is. -/
lemma reline_cons {c : Char} (hc : c ≠ '\n') (cs : List Char) :
    reline b (c :: cs) = c :: reline b cs := by
  rw [reline, List.flatMap_cons, if_neg hc]
  rfl

/-- Characters within a line stay as they are. -/
lemma reline_of_withinLine : ∀ {cs : List Char}, WithinLine cs → reline b cs = cs
  | [], _ => rfl
  | c :: cs, h => by
    have hc : c ≠ '\n' := by
      rintro rfl
      exact absurd (h '\n' (by simp)) (by decide)
    rw [reline_cons hc, reline_of_withinLine fun d hd => h d (by simp [hd])]

/-- With other line breaks, no characters are lost. -/
lemma reline_eq_nil (hb : Break b) : reline b cs = [] ↔ cs = [] := by
  cases cs with
  | nil => simp
  | cons c cs =>
    by_cases hc : c = '\n'
    · simp [hc, reline_newline, hb.ne_nil]
    · simp [reline_cons hc]

/-- No line feed stands in front of a text with other line breaks, if these are carriage returns. -/
lemma behind_reline (hb : Break b) : behind b (reline b cs) = reline b cs := by
  refine if_neg ?_
  rintro ⟨hlast, hhead⟩
  cases hb with
  | crlf | lf => exact absurd hlast (by decide)
  | cr =>
    cases cs with
    | nil => cases hhead
    | cons c cs =>
      by_cases hc : c = '\n'
      · rw [hc, reline_newline] at hhead
        exact absurd hhead (by simp)
      · rw [reline_cons hc] at hhead
        exact hc (Option.some.inj hhead)

/-- A test that does not tell the characters of line breaks apart does not do so within a line
break. -/
lemma Break.forall_test {b : List Char} {test : Char → Bool} (hb : Break b)
    (h : test '\r' = test '\n') :
    ∀ c ∈ b, test c = test '\n' := by
  cases hb <;> simp [h]

/-! ## Passing over characters -/

/-- Characters that pass a test are passed over with other line breaks as well, if the test does not
tell these apart. -/
lemma dropWhile_reline (hb : Break b) (test : Char → Bool) (h : test '\r' = test '\n') :
    ∀ cs : List Char,
    (reline b cs).dropWhile test = reline b (cs.dropWhile test)
  | [] => rfl
  | c :: cs => by
    by_cases hc : c = '\n'
    · subst hc
      have hall := hb.forall_test h
      cases hn : test '\n' with
      | true =>
        rw [reline_newline, List.dropWhile_append_of_pos fun c hc => by rw [hall c hc, hn],
          List.dropWhile_cons_of_pos hn, dropWhile_reline hb test h cs]
      | false =>
        obtain ⟨d, more, rfl, -⟩ := hb.exists_cons
        have hd : ¬ test d = true := by simp [hall d, hn]
        rw [List.dropWhile_cons_of_neg (by simp [hn]), reline_newline, List.cons_append,
          List.dropWhile_cons_of_neg hd]
    · cases hn : test c with
      | true =>
        rw [reline_cons hc, List.dropWhile_cons_of_pos hn, List.dropWhile_cons_of_pos hn,
          dropWhile_reline hb test h cs]
      | false =>
        have hneg : ¬ test c = true := by simp [hn]
        rw [reline_cons hc, List.dropWhile_cons_of_neg hneg, List.dropWhile_cons_of_neg hneg,
          reline_cons hc]

/-- What is dropped of a text with other line breaks. -/
lemma front_reline (h : rest <:+ cs) :
    front (reline b cs) (reline b rest) = reline b (front cs rest) := by
  obtain ⟨a, rfl⟩ := h
  rw [reline_append, front_append, front_append]

/-- What is dropped within a line stays as it is. -/
lemma front_reline_of_withinLine {a : List Char} (ha : WithinLine a) (hcs : cs = a ++ rest) :
    front (reline b cs) (reline b rest) = front cs rest := by
  rw [hcs, reline_append, front_append, front_append, reline_of_withinLine ha]

/-- The characters that pass a test have other line breaks, if the test does not tell these apart.
-/
lemma takeWhile_reline (hb : Break b) (test : Char → Bool) (h : test '\r' = test '\n')
    (cs : List Char) :
    (reline b cs).takeWhile test = reline b (cs.takeWhile test) := by
  rw [← front_dropWhile, ← front_dropWhile, dropWhile_reline hb test h,
    front_reline (List.dropWhile_suffix test)]

/-- Where a test fails at line breaks, the characters that satisfy it lie within a line. -/
lemma withinLine_takeWhile (test : Char → Bool) (hr : test '\r' = false) (hn : test '\n' = false)
    (cs : List Char) :
    WithinLine (cs.takeWhile test) := by
  intro c hc
  have htest := List.mem_takeWhile_imp hc
  by_contra hline
  simp only [endsLine, decide_eq_false_iff_not, not_not] at hline
  rcases hline with rfl | rfl <;> simp [hr, hn] at htest

/-- A character that is part of no line break is dropped with other line breaks as well. -/
lemma dropChar?_reline (hb : Break b) (test : Char → Bool) (hr : test '\r' = false)
    (hn : test '\n' = false)
    (cs : List Char) : dropChar? test (reline b cs) = (dropChar? test cs).map (reline b) := by
  cases cs with
  | nil => rfl
  | cons c cs =>
    by_cases hc : c = '\n'
    · obtain ⟨d, more, rfl, -⟩ := hb.exists_cons
      have hd : test d = false := by rw [hb.forall_test (hr.trans hn.symm) d (by simp), hn]
      simp [hc, reline_newline, dropChar?, hd, hn]
    · rw [reline_cons hc]
      cases hn : test c <;> simp [dropChar?, hn]

/-- A mark that is part of no line break differs from the characters of one. -/
lemma beq_of_not_endsLine {mark : Char} (h : endsLine mark = false) :
    ('\r' == mark) = false ∧ ('\n' == mark) = false := by
  simp only [beq_eq_false_iff_ne]
  constructor <;> rintro rfl <;> cases h

/-- A mark that is part of no line break is dropped with other line breaks as well. -/
lemma dropMark?_reline (hb : Break b) {mark : Char} (h : endsLine mark = false) (cs : List Char) :
    dropChar? (· == mark) (reline b cs) = (dropChar? (· == mark) cs).map (reline b) :=
  dropChar?_reline hb (· == mark) (beq_of_not_endsLine h).1 (beq_of_not_endsLine h).2 cs

/-- A prefix within a line is dropped with other line breaks as well. -/
lemma dropPrefix?_reline (hb : Break b) : ∀ {s : List Char}, WithinLine s → ∀ cs : List Char,
    (reline b cs).dropPrefix? s = (cs.dropPrefix? s).map (reline b)
  | [], _, cs => by simp
  | d :: s, hs, [] => rfl
  | d :: s, hs, c :: cs => by
    have hd : endsLine d = false := hs d (by simp)
    by_cases hc : c = '\n'
    · subst hc
      obtain ⟨e, more, rfl, he⟩ := hb.exists_cons
      have hne : (e == d) = false := by
        rw [beq_eq_false_iff_ne]
        rintro rfl
        simp [hd] at he
      have hne' : ('\n' == d) = false := by
        rw [beq_eq_false_iff_ne]
        rintro rfl
        exact absurd hd (by decide)
      simp [reline_newline, List.dropPrefix?, hne, hne']
    · have hs' : WithinLine s := fun e he => hs e (by simp [he])
      have ih := dropPrefix?_reline hb hs' cs
      rw [reline_cons hc, List.dropPrefix?, List.dropPrefix?, ih]
      split <;> rfl

/-- A line break is passed over as a line feed is. -/
lemma dropBreak?_reline (hb : Break b) (hcs : '\r' ∉ cs) :
    dropBreak? (reline b cs) = (dropBreak? cs).map (reline b) := by
  cases cs with
  | nil => rfl
  | cons c cs =>
    by_cases hc : c = '\n'
    · rw [hc, reline_newline, dropBreak?_append hb, behind_reline hb]
      rfl
    · have hr : c ≠ '\r' := by
        rintro rfl
        exact hcs (by simp)
      have hline : endsLine c = false := by simp [endsLine, hc, hr]
      have hnone : ∀ cs, dropBreak? (c :: cs) = none := fun cs =>
        dropBreak?_eq_none.2 fun d hd => by rwa [← Option.some.inj hd]
      rw [reline_cons hc, hnone, hnone]
      rfl

/-- With other line breaks, as many more digits are dropped. -/
lemma dropMoreDigits_reline (hb : Break b) (cs : List Char) :
    dropMoreDigits (reline b cs) = reline b (dropMoreDigits cs) := by
  have hset : ∀ c ∈ b, digitSet.contains c = false := hb.forall_test rfl
  have hstop : ∀ cs, dropMoreDigits (b ++ cs) = b ++ cs := by
    intro cs
    cases hb <;> rfl
  fun_induction dropMoreDigits cs with
  | case1 d cs hd ih =>
    have hne : d ≠ '\n' := by
      rintro rfl
      exact absurd hd (by decide)
    rw [reline_cons (by decide), reline_cons hne, dropMoreDigits_grouped hd, ih]
  | case2 d cs hd =>
    rw [reline_cons (by decide)]
    by_cases hne : d = '\n'
    · subst hne
      cases hb <;> rfl
    · rw [reline_cons hne, dropMoreDigits, if_neg hd]
  | case3 c cs hnot hc ih =>
    have hne : c ≠ '\n' := by
      rintro rfl
      exact absurd hc (by decide)
    rw [reline_cons hne, dropMoreDigits_digit hc, ih]
  | case4 c cs hnot hc =>
    by_cases hne : c = '\n'
    · rw [hne, reline_newline, hstop]
    · rw [reline_cons hne, dropMoreDigits, if_neg hc]
      rintro d more rfl hcons
      cases cs with
      | nil => cases hcons
      | cons e cs => exact hnot e cs rfl rfl
  | case5 => rfl

/-- With other line breaks, as many digits are dropped. -/
lemma dropDigits?_reline (hb : Break b) (cs : List Char) :
    dropDigits? (reline b cs) = (dropDigits? cs).map (reline b) := by
  rw [dropDigits?, dropDigits?, dropChar?_reline hb _ rfl rfl, Option.map_map, Option.map_map]
  exact congrArg₂ _ (funext fun rest => dropMoreDigits_reline hb rest) rfl

/-- The sign of a number is read with other line breaks as well. -/
lemma signAt_reline (hb : Break b) (cs : List Char) :
    signAt (reline b cs) = ((signAt cs).1, reline b (signAt cs).2) := by
  fun_cases signAt cs with
  | case1 cs => rfl
  | case2 cs => rfl
  | case3 cs hplus hminus =>
    cases cs with
    | nil => rfl
    | cons c cs =>
      by_cases hc : c = '\n'
      · subst hc
        cases hb <;> rfl
      · rw [reline_cons hc, signAt]
        · rintro _ ⟨⟩
          exact hplus cs rfl
        · rintro _ ⟨⟩
          exact hminus cs rfl

/-! ## Many steps -/

/-- A character that is not ahead does not come later on either. -/
lemma not_mem_of_suffix {c : Char} (h : rest <:+ cs) (hcs : c ∉ cs) : c ∉ rest :=
  fun hc => hcs (h.subset hc)

/-- A step over texts up to some length is one over those up to a smaller length. -/
lemma Relines.mono {β : Type} {f : β → β} {step : List Char → Option (β × List Char)} {m : Nat}
    (h : Relines b f n step) (hle : m ≤ n) : Relines b f m step :=
  fun cs hlen hcs => h cs (hlen.trans hle) hcs

/-- Of two steps, the first that is possible is taken with other line breaks as well. -/
lemma Relines.or {β : Type} {f : β → β} {step other : List Char → Option (β × List Char)}
    (h : Relines b f n step) (h' : Relines b f n other) :
    Relines b f n fun cs => (step cs).or (other cs) := by
  intro cs hlen hcs
  simp only [h cs hlen hcs, h' cs hlen hcs]
  cases step cs <;> rfl

/-- Many steps over a text with other line breaks are the steps over the text.

**Proof sketch.** Induction on the characters ahead, of which every step takes some. -/
lemma many_reline {β : Type} {f : β → β} {step : List Char → Option (β × List Char)}
    (ha : Advances step) (h : Relines b f n step) {cs : List Char} (hlen : cs.length ≤ n)
    (hcs : '\r' ∉ cs) :
    many step (reline b cs) = ((many step cs).1.map f, reline b (many step cs).2) := by
  have hstep := h cs hlen hcs
  cases hs : step cs with
  | none =>
    rw [hs] at hstep
    rw [many_of_none hs, many_of_none hstep]
    rfl
  | some result =>
    obtain ⟨v, rest⟩ := result
    rw [hs] at hstep
    have hlt := ha.length_lt hs
    obtain ⟨taken, -, rfl⟩ := ha cs v rest hs
    have hrest := many_reline ha h (hlt.le.trans hlen)
      (not_mem_of_suffix (List.suffix_append taken rest) hcs)
    rw [many_of_some ha hs, many_of_some ha hstep, hrest]
    rfl
termination_by cs.length

/-! ## Simple objects -/

/-- A word is read with other line breaks as well. -/
lemma relines_wordAt (hb : Break b) {word : List Char} {node : Node} (hword : WithinLine word)
    (hnode : node.reline b = node) : Relines b (Node.reline b) n (wordAt word node) := by
  intro cs _ _
  rw [wordAt, wordAt, dropPrefix?_reline hb hword]
  cases cs.dropPrefix? word with
  | none => rfl
  | some rest => simp [hnode]

/-- A number without a point is read with other line breaks as well. -/
lemma relines_integerAt (hb : Break b) : Relines b (Node.reline b) n integerAt := by
  intro cs _ _
  rw [integerAt, integerAt, signAt_reline hb, dropDigits?_reline hb]
  cases hdigits : dropDigits? (signAt cs).2 with
  | none => rfl
  | some rest =>
    obtain ⟨a, ha, hcs, -⟩ := dropDigits?_eq_some.1 hdigits
    simp [front_reline_of_withinLine (withinLine_of_wordSet ha.wordSet) hcs, Node.reline]

/-- A number with a point is read with other line breaks as well. -/
lemma relines_decimalAt (hb : Break b) : Relines b (Node.reline b) n decimalAt := by
  intro cs _ _
  have hwhole : (dropDigits? (reline b (signAt cs).2)).getD (reline b (signAt cs).2) =
      reline b ((dropDigits? (signAt cs).2).getD (signAt cs).2) := by
    rw [dropDigits?_reline hb]
    cases dropDigits? (signAt cs).2 <;> rfl
  rw [decimalAt, decimalAt, signAt_reline hb, hwhole, dropChar?_reline hb _ rfl rfl]
  cases hpoint : dropChar? (· == '.') ((dropDigits? (signAt cs).2).getD (signAt cs).2) with
  | none => rfl
  | some point =>
    have hdrop := dropDigits?_reline hb point
    cases hdigits : dropDigits? point with
    | none =>
      rw [hdigits] at hdrop
      simp [hdrop, hdigits]
    | some rest =>
      rw [hdigits] at hdrop
      obtain ⟨fraction, hfraction, rfl, -⟩ := dropDigits?_eq_some.1 hdigits
      obtain ⟨c, hc, hcons⟩ := dropChar?_eq_some.1 hpoint
      obtain ⟨whole, hdigit, hcs⟩ := exists_digits_or_nil (signAt cs).2
      have hwithin : WithinLine (whole ++ c :: fraction) := by
        refine withinLine_append ?_
          (List.forall_mem_cons.2 ⟨?_, withinLine_of_wordSet hfraction.wordSet⟩)
        · rcases hdigit with rfl | hdigit
          · simp [WithinLine]
          · exact withinLine_of_wordSet hdigit.wordSet
        · rw [eq_of_beq hc]
          rfl
      have hsplit : (signAt cs).2 = (whole ++ c :: fraction) ++ rest := by
        rw [hcs, hcons]
        simp
      simp [hdrop, hdigits, front_reline_of_withinLine hwithin hsplit, Node.reline]

/-- A character is read with other line breaks as well. -/
lemma relines_characterAt (hb : Break b) : Relines b (Node.reline b) n characterAt := by
  intro cs _ _
  rw [characterAt, characterAt, dropChar?_reline hb _ rfl rfl]
  cases dropChar? (· == '\x60') cs with
  | none => rfl
  | some char =>
    have hdrop := dropChar?_reline hb wordSet.contains rfl rfl char
    cases hword : dropChar? wordSet.contains char with
    | none =>
      rw [hword] at hdrop
      simp [hdrop, hword]
    | some rest =>
      rw [hword] at hdrop
      obtain ⟨c, hc, rfl⟩ := dropChar?_eq_some.1 hword
      have hwithin : WithinLine [c] := by simpa [WithinLine] using not_endsLine_of_wordSet hc
      simp [hdrop, hword, front_reline_of_withinLine hwithin (List.singleton_append).symm,
        Node.reline]

/-- A symbol is read with other line breaks as well. -/
lemma relines_symbolAt (hb : Break b) : Relines b (Node.reline b) n symbolAt := by
  intro cs _ _
  rw [symbolAt, symbolAt, dropChar?_reline hb _ rfl rfl]
  cases dropChar? (· == ':') cs with
  | none => rfl
  | some name =>
    simp only [bind, Option.map_some, Option.bind_some,
      dropChar?_reline hb letterSet.contains rfl rfl, takeWhile_reline hb letterSet.contains rfl,
      dropWhile_reline hb letterSet.contains rfl]
    cases dropChar? letterSet.contains name with
    | none => rfl
    | some rest => simp [Node.reline, relineText]

/-- A text between two marks is read with other line breaks, and has these itself. -/
lemma relines_quotedAt (hb : Break b) {mark : Char} (hmark : endsLine mark = false)
    {make : String → Node} (hmake : ∀ text, (make text).reline b = make (relineText b text)) :
    Relines b (Node.reline b) n (quotedAt mark make) := by
  intro cs _ _
  have huniform : ('\r' != mark) = ('\n' != mark) := by simp [bne, beq_of_not_endsLine hmark]
  rw [quotedAt, quotedAt, dropMark?_reline hb hmark]
  cases dropChar? (· == mark) cs with
  | none => rfl
  | some body =>
    simp only [bind, Option.map_some, Option.bind_some, takeWhile_reline hb (· != mark) huniform,
      dropWhile_reline hb (· != mark) huniform, dropMark?_reline hb hmark]
    cases dropChar? (· == mark) (body.dropWhile (· != mark)) with
    | none => rfl
    | some rest => simp [hmake, relineText]

/-! ## Documents -/

/-- The label that ends a document is found with other line breaks as well. -/
lemma endLabel?_reline (hb : Break b) {label : List Char} (hl : WithinLine label)
    (hcs : '\r' ∉ cs) : endLabel? label (reline b cs) = (endLabel? label cs).map (reline b) := by
  rw [endLabel?, endLabel?, dropPrefix?_reline hb hl]
  cases hprefix : cs.dropPrefix? label with
  | none => rfl
  | some rest =>
    obtain rfl := dropPrefix?_eq_some.1 hprefix
    have hrest := not_mem_of_suffix (List.suffix_append label rest) hcs
    simp only [bind, Option.map_some, Option.bind_some, reline_eq_nil hb,
      dropBreak?_reline hb hrest]
    split <;> rfl

/-- A step over a line of a document is taken with other line breaks as well. -/
lemma relines_lineStep (hb : Break b) {label : List Char} (hl : WithinLine label) :
    Relines b id n (lineStep label) := by
  intro cs _ hcs
  have hrest := not_mem_of_suffix (List.dropWhile_suffix (!endsLine ·)) hcs
  rw [lineStep, lineStep, endLabel?_reline hb hl hcs, dropWhile_reline hb _ rfl,
    dropBreak?_reline hb hrest]
  cases endLabel? label cs with
  | some _ => rfl
  | none =>
    cases dropBreak? (cs.dropWhile (!endsLine ·)) <;> rfl

/-- A document is read with other line breaks, and has these itself. -/
lemma relines_hereDocAt (hb : Break b) : Relines b (Node.reline b) n hereDocAt := by
  intro cs _ hcs
  rw [hereDocAt, hereDocAt, dropPrefix?_reline hb (by decide)]
  cases hmarks : cs.dropPrefix? ['<', '<'] with
  | none => rfl
  | some label =>
    obtain rfl := dropPrefix?_eq_some.1 hmarks
    have hset := withinLine_takeWhile labelSet.contains rfl rfl label
    simp only [bind, Option.map_some, Option.bind_some,
      dropChar?_reline hb labelSet.contains rfl rfl, takeWhile_reline hb labelSet.contains rfl,
      dropWhile_reline hb labelSet.contains rfl, reline_of_withinLine hset]
    cases hletter : dropChar? labelSet.contains label with
    | none => rfl
    | some _ =>
      have hl : LabelText (label.takeWhile labelSet.contains) := by
        obtain ⟨c, hc, rfl⟩ := dropChar?_eq_some.1 hletter
        exact ⟨by simp [hc], fun d hd => List.mem_takeWhile_imp hd⟩
      have hlabel : '\r' ∉ label.dropWhile labelSet.contains :=
        not_mem_of_suffix ((List.dropWhile_suffix _).trans (List.suffix_append _ label)) hcs
      simp only [Option.map_some, Option.bind_some, dropBreak?_reline hb hlabel]
      cases hbreak : dropBreak? (label.dropWhile labelSet.contains) with
      | none => rfl
      | some body =>
        have hbody := not_mem_of_suffix (dropBreak?_suffix hbreak) hlabel
        have hclose := many_suffix (advances_lineStep hl) body
        have hmany := many_reline (advances_lineStep hl)
          (relines_lineStep hb hset) (Nat.le_refl body.length) hbody
        simp only [Option.map_some, Option.bind_some, hmany,
          endLabel?_reline hb hset (not_mem_of_suffix hclose hbody), front_reline hclose]
        cases endLabel? (label.takeWhile labelSet.contains)
          (many (lineStep (label.takeWhile labelSet.contains)) body).2 with
        | none => rfl
        | some rest => simp [Node.reline, relineText]

/-- The end of a range is read with other line breaks as well. -/
lemma relines_endpointAt (hb : Break b) : Relines b (Node.reline b) n endpointAt :=
  (relines_integerAt hb).or (relines_characterAt hb)

/-- A simple object in a text with other line breaks is read as it is in the text. -/
theorem relines_simpleAt (hb : Break b) : Relines b (Node.reline b) n simpleAt := by
  have hstring : Relines b (Node.reline b) n stringAt :=
    (relines_symbolAt hb).or ((relines_quotedAt hb rfl fun _ => rfl).or
      ((relines_quotedAt hb rfl fun _ => rfl).or (relines_hereDocAt hb)))
  have hregex : Relines b (Node.reline b) n regexAt := relines_quotedAt hb rfl fun _ => rfl
  have hboolean : Relines b (Node.reline b) n booleanAt :=
    (relines_wordAt hb (by decide) rfl).or (relines_wordAt hb (by decide) rfl)
  exact (relines_wordAt hb (by decide) rfl).or (hboolean.or
    (((relines_decimalAt hb).or (relines_integerAt hb)).or
      ((relines_characterAt hb).or (hstring.or hregex))))

end

end Packrat.Program
