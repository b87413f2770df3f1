import Mathlib.Data.List.Basic
import Packrat.Proofs.Rule.Standard
import Packrat.Proofs.Text.Quoted
import Packrat.Proofs.Text.Split
set_option autoImplicit false
set_option relaxedAutoImplicit false

/-!
# Reading the notation of rules

The first character of a notation tells whether it is that of a text, of a row, of a lookahead, or
begins with a name; and each of these can be told where it ends. So there is only one way to read
the notation of a regular rule, which is its standard form.

## Main definitions

* `Packrat.Rule.Closes` — what may follow a rule in a row.
* `Packrat.Rule.lead` — what the first character of a notation tells.
* `Packrat.Rule.Reads` — the characters of a rule can be read in one way only.

## Main results

* `Packrat.Rule.suffixes_unique` — suffixes can be read in one way only.
* `Packrat.Rule.Regular.reads` — so can regular rules.
* `Packrat.Rule.render_eq_iff` — regular rules have the same notation just if they have the same
  standard form.
-/

namespace Packrat.Rule

variable {ν α : Type}

/-! ## Suffixes -/

/-- The characters of a bound. -/
def boundChars (bound : Int) : List Char := (toString bound).toList

/-- The characters of a bound that is not negative are its digits. -/
lemma boundChars_ofNat (n : Nat) : boundChars (.ofNat n) = Nat.toDigits 10 n := Nat.toList_repr

/-- The characters of a negative bound are a minus and digits. -/
lemma boundChars_negSucc (n : Nat) : boundChars (.negSucc n) = '-' :: Nat.toDigits 10 (n + 1) := by
  rw [← Nat.toList_repr]
  exact String.toList_append

/-- A bound has a character. -/
lemma boundChars_ne_nil (bound : Int) : boundChars bound ≠ [] := by
  cases bound with
  | ofNat n =>
    rw [boundChars_ofNat]
    exact Nat.toDigits_ne_nil
  | negSucc n =>
    rw [boundChars_negSucc]
    exact List.cons_ne_nil _ _

/-- The characters of a bound are digits, or a minus. -/
lemma isDigit_or_eq_of_mem_boundChars {bound : Int} {c : Char} (h : c ∈ boundChars bound) :
    c.isDigit = true ∨ c = '-' := by
  have hdigits : ∀ {n : Nat}, c ∈ Nat.toDigits 10 n → c.isDigit = true :=
    Nat.isDigit_of_mem_toDigits (by decide) (by decide)
  cases bound with
  | ofNat n =>
    rw [boundChars_ofNat] at h
    exact .inl (hdigits h)
  | negSucc n =>
    rw [boundChars_negSucc] at h
    exact (List.mem_cons.1 h).symm.imp_left hdigits

/-- A number can be told from its digits. -/
lemma toDigits_injective {m n : Nat} (h : Nat.toDigits 10 m = Nat.toDigits 10 n) : m = n := by
  rw [← Nat.ofDigitChars_ten_toDigits (n := m), h, Nat.ofDigitChars_ten_toDigits]

/-- A bound can be told from its characters. -/
lemma boundChars_injective {bound other : Int} (h : boundChars bound = boundChars other) :
    bound = other := by
  have hsign : ∀ m n : Nat, Nat.toDigits 10 m ≠ '-' :: Nat.toDigits 10 (n + 1) := fun m n heq =>
    absurd (Nat.isDigit_of_mem_toDigits (by decide) (by decide) (heq ▸ List.mem_cons_self))
      (by decide)
  cases bound with
  | ofNat m =>
    cases other with
    | ofNat n =>
      rw [boundChars_ofNat, boundChars_ofNat] at h
      rw [toDigits_injective h]
    | negSucc n =>
      rw [boundChars_ofNat, boundChars_negSucc] at h
      exact absurd h (hsign m n)
  | negSucc m =>
    cases other with
    | ofNat n =>
      rw [boundChars_ofNat, boundChars_negSucc] at h
      exact absurd h.symm (hsign n m)
    | negSucc n =>
      rw [boundChars_negSucc, boundChars_negSucc] at h
      rw [Nat.succ.inj (toDigits_injective (List.cons.inj h).2)]

/-- The characters of the upper bound of a repetition. -/
def upperChars (most : Option Int) : List Char := most.elim [] boundChars

/-- An upper bound can be told from its characters, or from there being none. -/
lemma upperChars_injective {most other : Option Int} (h : upperChars most = upperChars other) :
    most = other := by
  cases most with
  | none =>
    cases other with
    | none => rfl
    | some bound => exact absurd h.symm (boundChars_ne_nil bound)
  | some bound =>
    cases other with
    | none => exact absurd h (boundChars_ne_nil bound)
    | some bound' => rw [boundChars_injective h]

/-- There is no closing brace among the characters of an upper bound. -/
lemma not_mem_upperChars (most : Option Int) : '\x7d' ∉ upperChars most := by
  cases most with
  | none => exact List.not_mem_nil
  | some bound =>
    intro h
    rcases isDigit_or_eq_of_mem_boundChars h with h | h <;> cases h

namespace Suffix

/-- Only the most usual bounds have signs of their own. -/
lemma chars_bounds (least : Int) (most : Option Int) :
    (least = 0 ∧ most = none ∧ (bounds least most).chars = ['*']) ∨
      (least = 1 ∧ most = none ∧ (bounds least most).chars = ['+']) ∨
      (bounds least most).chars =
        '\x7b' :: (boundChars least ++ ',' :: (upperChars most ++ ['\x7d'])) := by
  cases most with
  | none =>
    by_cases hzero : least = 0
    · exact .inl ⟨hzero, rfl, by rw [hzero]; rfl⟩
    · by_cases hone : least = 1
      · exact .inr (.inl ⟨hone, rfl, by rw [hone]; rfl⟩)
      · refine .inr (.inr ?_)
        rw [chars, renderBounds, if_neg hzero, if_neg hone, String.toList_append,
          String.toList_append]
        rfl
  | some most =>
    refine .inr (.inr ?_)
    rw [chars, renderBounds, String.toList_append, String.toList_append, String.toList_append,
      String.toList_append, List.append_assoc, List.append_assoc, List.append_assoc]
    rfl

/-- Bounds in braces end with the brace. -/
lemma braces_unique {least other : Int} {most upper : Option Int} {cs rest : List Char}
    (h : boundChars least ++ ',' :: (upperChars most ++ '\x7d' :: cs) =
      boundChars other ++ ',' :: (upperChars upper ++ '\x7d' :: rest)) :
    least = other ∧ most = upper ∧ cs = rest := by
  have hcomma : ∀ bound, ',' ∉ boundChars bound := by
    intro bound h
    rcases isDigit_or_eq_of_mem_boundChars h with h | h <;> cases h
  obtain ⟨hleast, h⟩ := split_unique (bne_of_not_mem (hcomma least)) (bne_of_not_mem (hcomma other))
    (by simp) (by simp) h
  obtain ⟨hmost, h⟩ := split_unique (bne_of_not_mem (not_mem_upperChars most))
    (bne_of_not_mem (not_mem_upperChars upper)) (by simp) (by simp) (List.cons.inj h).2
  exact ⟨boundChars_injective hleast, upperChars_injective hmost, (List.cons.inj h).2⟩

/-- A suffix is read off the front of what it stands in front of. -/
lemma chars_append_unique {s t : Suffix} {cs rest : List Char}
    (h : s.chars ++ cs = t.chars ++ rest) :
    s = t ∧ cs = rest := by
  have hoption : ∀ {least most} {cs rest : List Char},
      (bounds least most).chars ++ cs ≠ '?' :: rest := by
    intro least most cs rest h
    obtain ⟨-, -, hchars⟩ | ⟨-, -, hchars⟩ | hchars := chars_bounds least most <;>
      rw [hchars] at h <;> cases h
  cases s with
  | optional =>
    cases t with
    | optional => exact ⟨rfl, (List.cons.inj h).2⟩
    | bounds least most => exact absurd h.symm hoption
  | bounds least most =>
    cases t with
    | optional => exact absurd h hoption
    | bounds least' most' =>
      obtain ⟨rfl, rfl, hchars⟩ | ⟨rfl, rfl, hchars⟩ | hchars := chars_bounds least most <;>
        obtain ⟨rfl, rfl, hchars'⟩ | ⟨rfl, rfl, hchars'⟩ | hchars' := chars_bounds least' most' <;>
        simp only [hchars, hchars', List.cons_append, List.append_assoc, List.nil_append] at h
      case inl.inl | inr.inl.inr.inl => exact ⟨rfl, (List.cons.inj h).2⟩
      case inr.inr.inr.inr =>
        obtain ⟨rfl, rfl, rfl⟩ := braces_unique (List.cons.inj h).2
        exact ⟨rfl, rfl⟩
      all_goals exact absurd (List.cons.inj h).1 (by decide)

/-- A suffix begins with a sign of its own. -/
lemma exists_chars (s : Suffix) : ∃ c cs, s.chars = c :: cs ∧ c ∈ ['*', '+', '?', '\x7b'] := by
  cases s with
  | optional => exact ⟨_, _, rfl, by decide⟩
  | bounds least most =>
    obtain ⟨-, -, h⟩ | ⟨-, -, h⟩ | h := chars_bounds least most <;> exact ⟨_, _, h, by decide⟩

end Suffix

/-- What may follow a rule in a row: nothing, a blank in front of the next rule, or a
parenthesis. -/
def Closes (rest : List Char) : Prop := ∀ c ∈ rest.head?, c = ' ' ∨ c = ')'

/-- The end of the notation may follow a rule. -/
lemma closes_nil : Closes [] := nofun

/-- A blank or a parenthesis may follow a rule. -/
lemma closes_cons {c : Char} (h : c = ' ' ∨ c = ')') (rest : List Char) : Closes (c :: rest) := by
  intro d hd
  obtain rfl := Option.some.inj hd
  exact h

/-- What may follow a rule is no suffix. -/
lemma Closes.ne_suffix {rest cs : List Char} (h : Closes rest) (s : Suffix) :
    rest ≠ s.chars ++ cs := by
  obtain ⟨c, ds, hs, hc⟩ := s.exists_chars
  rintro rfl
  rw [hs] at h
  rcases h c rfl with rfl | rfl <;> exact absurd hc (by decide)

/-- The characters of some suffixes are those of the first one and of the others. -/
lemma suffixChars_cons (s : Suffix) (ss : List Suffix) :
    suffixChars (s :: ss) = s.chars ++ suffixChars ss :=
  List.flatMap_cons

/-- Suffixes can be read in one way only. -/
theorem suffixes_unique : ∀ {ss ts : List Suffix} {cs rest : List Char}, Closes cs → Closes rest →
    suffixChars ss ++ cs = suffixChars ts ++ rest → ss = ts ∧ cs = rest
  | [], [], _, _, _, _, h => ⟨rfl, h⟩
  | [], t :: ts, cs, rest, hcs, _, h => by
    rw [suffixChars_cons, List.append_assoc] at h
    exact absurd h (hcs.ne_suffix t)
  | s :: ss, [], cs, rest, _, hrest, h => by
    rw [suffixChars_cons, List.append_assoc] at h
    exact absurd h.symm (hrest.ne_suffix s)
  | s :: ss, t :: ts, cs, rest, hcs, hrest, h => by
    rw [suffixChars_cons, suffixChars_cons, List.append_assoc, List.append_assoc] at h
    obtain ⟨rfl, hbehind⟩ := Suffix.chars_append_unique h
    obtain ⟨rfl, rfl⟩ := suffixes_unique hcs hrest hbehind
    exact ⟨rfl, rfl⟩

/-- The characters that may stand behind a rule, that of its first suffix included. -/
def followers : List Char := ['*', '+', '?', '\x7b', ' ', ')']

/-- What follows a rule is a suffix, a blank or a parenthesis. -/
lemma Closes.head_mem_followers {rest : List Char} (h : Closes rest) (ss : List Suffix) :
    ∀ c ∈ (suffixChars ss ++ rest).head?, c ∈ followers := by
  intro c hc
  cases ss with
  | nil => rcases h c hc with rfl | rfl <;> decide
  | cons s ss =>
    obtain ⟨d, ds, hs, hd⟩ := s.exists_chars
    rw [suffixChars_cons, hs] at hc
    obtain rfl := Option.some.inj hc
    exact List.mem_append_left [' ', ')'] hd

/-- What follows a rule begins with a sign of the notation. -/
lemma Closes.head_mem_signs {rest : List Char} (h : Closes rest) (ss : List Suffix) :
    ∀ c ∈ (suffixChars ss ++ rest).head?, c ∈ signs := fun c hc =>
  (show followers ⊆ signs by decide) (h.head_mem_followers ss c hc)

/-- What stands behind a rule is not what stands behind a name in front of one. -/
lemma Closes.suffixChars_ne {rest : List Char} (h : Closes rest) (ss : List Suffix) {c : Char}
    (hc : c ∉ followers) (cs : List Char) : suffixChars ss ++ rest ≠ c :: cs :=
  fun heq => hc (h.head_mem_followers ss c (by rw [heq]; rfl))

/-! ## Names -/

section Names

variable {name other : String}

/-- A name ends where a sign follows. -/
lemma IsName.append_unique (hname : IsName name) (hother : IsName other) {cs rest : List Char}
    (hcs : ∀ c ∈ cs.head?, c ∈ signs) (hrest : ∀ c ∈ rest.head?, c ∈ signs)
    (h : name.toList ++ cs = other.toList ++ rest) : name = other ∧ cs = rest := by
  have hpasses : ∀ {name : String}, IsName name → ∀ c ∈ name.toList, decide (c ∉ signs) = true :=
    fun h c hc => decide_eq_true (h.not_mem_signs c hc)
  have hfails : ∀ {cs : List Char}, (∀ c ∈ cs.head?, c ∈ signs) →
      ∀ c ∈ cs.head?, decide (c ∉ signs) = false :=
    fun h c hc => decide_eq_false (not_not_intro (h c hc))
  obtain ⟨hsame, hbehind⟩ :=
    split_unique (hpasses hname) (hpasses hother) (hfails hcs) (hfails hrest) h
  exact ⟨String.toList_inj.1 hsame, hbehind⟩

end Names

/-! ## First characters -/

/-- What the first character of a notation tells about a rule. -/
inductive Lead where
  | text
  | name
  | row
  | look
  deriving DecidableEq

/-- What a character in front of a notation tells, if one can stand there. -/
def Lead.ofChar? (c : Char) : Option Lead :=
  if c = '\x27' ∨ c = '\x22' then some .text
  else if c = '(' then some .row
  else if c = '!' ∨ c = '&' then some .look
  else if c ∈ signs then none
  else some .name

/-- What the first character of the notation of a rule tells about it. -/
def lead : Rule ν α → Lead
  | .sequence _ | .choice _ => .row
  | .lookahead _ _ => .look
  | .named _ | .capture _ _ | .bind _ _ => .name
  | .repetition rule _ _ | .optional rule => rule.lead
  | _ => .text

/-- Whether a rule has no suffixes of its own. -/
def isBare : Rule ν α → Bool
  | .repetition _ _ _ | .optional _ => false
  | _ => true

section Reading

variable {nameOf : ν → String} {known : ν → Prop} {rule other : Rule ν α}

/-- What begins with a name is led by one. -/
lemma IsName.exists_head {name : String} (h : IsName name) (cs : List Char) :
    ∃ c rest, name.toList ++ cs = c :: rest ∧ Lead.ofChar? c = some .name := by
  obtain ⟨c, rest, hcs⟩ := List.exists_cons_of_ne_nil h.ne_nil
  have hc : c ∉ signs := h.not_mem_signs c (hcs ▸ List.mem_cons_self)
  have hne : ∀ d ∈ signs, c ≠ d := fun d hd heq => hc (heq ▸ hd)
  refine ⟨c, rest ++ cs, by rw [hcs, List.cons_append], ?_⟩
  rw [Lead.ofChar?, if_neg (not_or.2 ⟨hne _ (by decide), hne _ (by decide)⟩),
    if_neg (hne _ (by decide)), if_neg (not_or.2 ⟨hne _ (by decide), hne _ (by decide)⟩), if_neg hc]

/-- The notation of a regular rule begins with a character that tells about it. -/
lemma Regular.exists_head (h : Regular nameOf known rule) (ss : List Suffix) :
    ∃ c cs, spelled nameOf rule ss = c :: cs ∧ Lead.ofChar? c = some rule.lead := by
  induction h generalizing ss with
  | literal s =>
    rw [spelled_literal, quote, String.toList_ofList, Quoted.chars, List.cons_append]
    refine ⟨_, _, rfl, ?_⟩
    rcases Quoted.mark_cases s.toList with hmark | hmark <;> rw [hmark] <;> rfl
  | named _ hname => exact hname.exists_head _
  | sequence =>
    rw [spelled_sequence]
    exact ⟨_, _, rfl, rfl⟩
  | choice =>
    rw [spelled_choice]
    exact ⟨_, _, rfl, rfl⟩
  | repetition least most _ ih =>
    rw [spelled_repetition]
    exact ih _
  | optional _ ih =>
    rw [spelled_optional]
    exact ih _
  | lookahead negative =>
    rw [spelled_lookahead]
    cases negative <;> exact ⟨_, _, rfl, rfl⟩
  | capture hname =>
    rw [spelled_capture]
    exact hname.exists_head _
  | bind hname =>
    rw [spelled_bind]
    exact hname.exists_head _

/-- A rule is a bare one with suffixes. -/
lemma Regular.exists_bare (h : Regular nameOf known rule) (ss : List Suffix) :
    ∃ (inner : Rule ν α) (ts : List Suffix), Regular nameOf known inner ∧ inner.isBare = true ∧
      spelled nameOf rule ss = spelled nameOf inner ts ∧
      rule.standardWith ss = inner.standardWith ts := by
  induction h generalizing ss with
  | repetition least most _ ih =>
    rw [spelled_repetition, standardWith]
    exact ih _
  | optional _ ih =>
    rw [spelled_optional, standardWith]
    exact ih _
  | literal | named | sequence | choice | lookahead | capture | bind =>
    exact ⟨_, ss, by constructor <;> assumption, rfl, rfl, rfl⟩

/-! ## Rules in a row -/

variable (nameOf known) in
/-- The characters of a rule with suffixes, in front of what closes it, are not those of another
reading. -/
def Reads (rule : Rule ν α) : Prop :=
  ∀ ⦃other : Rule ν α⦄, Regular nameOf known other → ∀ ⦃ss ts : List Suffix⦄ ⦃cs rest : List Char⦄,
    Closes cs →
    Closes rest → spelled nameOf rule ss ++ cs = spelled nameOf other ts ++ rest →
    rule.standardWith ss = other.standardWith ts ∧ cs = rest

/-- Only bare rules need to be looked at, and those whose first character tells the same. -/
lemma Reads.of_bare (h : Regular nameOf known rule)
    (hbare : ∀ other : Rule ν α, Regular nameOf known other → other.isBare = true →
      rule.lead = other.lead →
      ∀ (ss ts : List Suffix) (cs rest : List Char), Closes cs → Closes rest →
      spelled nameOf rule ss ++ cs = spelled nameOf other ts ++ rest →
      rule.standardWith ss = other.standardWith ts ∧ cs = rest) : Reads nameOf known rule := by
  intro other hother ss ts cs rest hcs hrest hsame
  obtain ⟨inner, us, hinner, hisBare, hspelled, hstandard⟩ := hother.exists_bare ts
  rw [hspelled] at hsame
  rw [hstandard]
  refine hbare inner hinner hisBare ?_ ss us cs rest hcs hrest hsame
  obtain ⟨c, front, hc, hlead⟩ := h.exists_head ss
  obtain ⟨d, back, hd, hlead'⟩ := hinner.exists_head us
  rw [hc, hd] at hsame
  rw [(List.cons.inj hsame).1] at hlead
  exact Option.some.inj (hlead.symm.trans hlead')

variable (nameOf) in
/-- The characters of the rules of a row behind the first one. -/
def spelledTail (isChoice : Bool) (rules : List (Rule ν α)) : List Char :=
  rules.flatMap fun rule => separator isChoice ++ spelled nameOf rule []

/-- A row is its first rule, and the others with what stands in front of each. -/
lemma spelledRow_cons (isChoice : Bool) (rule : Rule ν α) (rules : List (Rule ν α)) :
    spelledRow nameOf isChoice (rule :: rules) =
      spelled nameOf rule [] ++ spelledTail nameOf isChoice rules := by
  induction rules generalizing rule with
  | nil => simp [spelledRow, spelledTail]
  | cons next rules ih =>
    have hnext := ih next
    rw [spelledRow, List.map_cons] at hnext ⊢
    rw [List.map_cons, List.intercalate_cons_cons, hnext, spelledTail, spelledTail,
      List.flatMap_cons, List.append_assoc, List.append_assoc]

/-- Behind a rule of a row, the next one or the closing parenthesis may follow. -/
lemma closes_tail (isChoice : Bool) (rules : List (Rule ν α)) (cs : List Char) :
    Closes (spelledTail nameOf isChoice rules ++ ')' :: cs) := by
  cases rules with
  | nil => exact closes_cons (.inr rfl) cs
  | cons rule rules => cases isChoice <;> exact closes_cons (.inl rfl) _

/-- A slash, or a closing parenthesis, begins no rule. -/
lemma Regular.spelled_ne (h : Regular nameOf known rule) {c : Char} (hc : Lead.ofChar? c = none)
    (ss : List Suffix) (cs rest : List Char) : spelled nameOf rule ss ++ cs ≠ c :: rest := by
  obtain ⟨d, front, hd, hlead⟩ := h.exists_head ss
  intro heq
  rw [hd] at heq
  rw [(List.cons.inj heq).1, hc] at hlead
  cases hlead

/-- Behind a first rule, the others can be read in one way only, and so can what stands between
them. -/
lemma tail_unique {isChoice isChoice' : Bool} :
    ∀ {rules others : List (Rule ν α)} {cs rest : List Char},
    (∀ rule ∈ rules, Regular nameOf known rule ∧ Reads nameOf known rule) →
    (∀ rule ∈ others, Regular nameOf known rule) →
    spelledTail nameOf isChoice rules ++ ')' :: cs = spelledTail nameOf isChoice' others ++
      ')' :: rest →
    rules.map standard = others.map standard ∧ (rules ≠ [] → isChoice = isChoice') ∧ cs = rest
  | [], [], _, _, _, _, h => ⟨rfl, fun hne => absurd rfl hne, (List.cons.inj h).2⟩
  | [], other :: others, _, _, _, _, h => by
    cases isChoice' <;> exact absurd (List.cons.inj h).1 (by decide)
  | rule :: rules, [], _, _, _, _, h => by
    cases isChoice <;> exact absurd (List.cons.inj h).1 (by decide)
  | rule :: rules, other :: others, cs, rest, hrules, hothers, h => by
    rw [spelledTail, spelledTail, List.flatMap_cons, List.flatMap_cons, ← spelledTail,
      ← spelledTail] at h
    simp only [List.append_assoc] at h
    obtain ⟨hregular, hreads⟩ := hrules rule List.mem_cons_self
    have hother := hothers other List.mem_cons_self
    -- Behind the blank comes the next rule or a slash, and no rule begins with that.
    have hchoice : isChoice = isChoice' := by
      cases isChoice <;> cases isChoice'
      · rfl
      · exact absurd (List.cons.inj h).2 (hregular.spelled_ne rfl _ _ _)
      · exact absurd (List.cons.inj h).2.symm (hother.spelled_ne rfl _ _ _)
      · rfl
    subst hchoice
    obtain ⟨hfirst, htail⟩ :=
      hreads hother (closes_tail _ _ _) (closes_tail _ _ _) (List.append_cancel_left h)
    obtain ⟨hmore, -, hcs⟩ :=
      tail_unique (fun rule hrule => hrules rule (List.mem_cons_of_mem _ hrule))
      (fun rule hrule => hothers rule (List.mem_cons_of_mem _ hrule)) htail
    refine ⟨?_, fun _ => rfl, hcs⟩
    rw [List.map_cons, List.map_cons, standard, standard, hfirst, hmore]

/-- A row can be read in one way only, up to the parenthesis that closes it. -/
lemma row_unique {isChoice isChoice' : Bool} {rules others : List (Rule ν α)} {cs rest : List Char}
    (hrules : ∀ rule ∈ rules, Regular nameOf known rule ∧ Reads nameOf known rule)
    (hlength : rules.length ≠ 1)
    (hothers : ∀ rule ∈ others, Regular nameOf known rule) (hlength' : others.length ≠ 1)
    (h : spelledRow nameOf isChoice rules ++ ')' :: cs = spelledRow nameOf isChoice' others ++
      ')' :: rest) :
    row isChoice (rules.map standard) = row isChoice' (others.map standard) ∧ cs = rest := by
  cases rules with
  | nil =>
    cases others with
    | nil => exact ⟨by cases isChoice <;> cases isChoice' <;> rfl, (List.cons.inj h).2⟩
    | cons other others =>
      rw [spelledRow_cons, List.append_assoc] at h
      exact absurd h.symm ((hothers other List.mem_cons_self).spelled_ne rfl _ _ _)
  | cons rule rules =>
    obtain ⟨hregular, hreads⟩ := hrules rule List.mem_cons_self
    cases others with
    | nil =>
      rw [spelledRow_cons, List.append_assoc] at h
      exact absurd h (hregular.spelled_ne rfl _ _ _)
    | cons other others =>
      rw [spelledRow_cons, spelledRow_cons, List.append_assoc, List.append_assoc] at h
      obtain ⟨hfirst, htail⟩ := hreads (hothers other List.mem_cons_self) (closes_tail _ _ _)
        (closes_tail _ _ _) h
      obtain ⟨hmore, hchoice, hcs⟩ :=
        tail_unique (fun rule hrule => hrules rule (List.mem_cons_of_mem _ hrule))
        (fun rule hrule => hothers rule (List.mem_cons_of_mem _ hrule)) htail
      have hne : rules ≠ [] := fun hnil => hlength (by rw [hnil]; rfl)
      rw [hchoice hne, List.map_cons, List.map_cons, standard, standard, hfirst, hmore]
      exact ⟨rfl, hcs⟩

/-- A row in parentheses, with suffixes, can be read in one way only. -/
lemma parenthesised_unique {isChoice isChoice' : Bool} {rules others : List (Rule ν α)}
    (hrules : ∀ rule ∈ rules, Regular nameOf known rule ∧ Reads nameOf known rule)
    (hlength : rules.length ≠ 1)
    (hothers : ∀ rule ∈ others, Regular nameOf known rule) (hlength' : others.length ≠ 1)
    {ss ts : List Suffix} {cs rest : List Char} (hcs : Closes cs) (hrest : Closes rest)
    (h : '(' :: (spelledRow nameOf isChoice rules ++ ')' :: suffixChars ss) ++ cs =
      '(' :: (spelledRow nameOf isChoice' others ++ ')' :: suffixChars ts) ++ rest) :
    wrap (row isChoice (standardWith.standardParts rules)) ss =
      wrap (row isChoice' (standardWith.standardParts others)) ts ∧ cs = rest := by
  simp only [List.cons_append, List.append_assoc] at h
  obtain ⟨hrow, hbehind⟩ := row_unique hrules hlength hothers hlength' (List.cons.inj h).2
  obtain ⟨rfl, rfl⟩ := suffixes_unique hcs hrest hbehind
  rw [standardParts_eq, standardParts_eq, hrow]
  exact ⟨rfl, rfl⟩

/-- A name with a sign behind it can be read in one way only. -/
lemma labelled_unique {name name' : String} (hname : IsName name) (hname' : IsName name')
    {c d : Char} (hc : c ∈ signs) (hd : d ∈ signs) {cs rest more others : List Char}
    (h : name.toList ++ c :: cs ++ more = name'.toList ++ d :: rest ++ others) :
    name = name' ∧ c = d ∧ cs ++ more = rest ++ others := by
  rw [List.append_assoc, List.append_assoc] at h
  obtain ⟨hsame, hbehind⟩ := hname.append_unique hname' (by simpa using hc) (by simpa using hd) h
  exact ⟨hsame, List.cons.inj hbehind⟩

/-- A name on its own is not that of a capture or a binding. -/
lemma named_ne {name name' : String} (hname : IsName name) (hname' : IsName name') {c : Char}
    (hc : c ∈ signs)
    (hne : c ∉ followers) {ss : List Suffix} {cs rest more : List Char} (hcs : Closes cs) :
    name.toList ++ suffixChars ss ++ cs ≠ name'.toList ++ c :: rest ++ more := by
  intro h
  rw [List.append_assoc, List.append_assoc] at h
  obtain ⟨-, hbehind⟩ := hname.append_unique hname' (hcs.head_mem_signs ss) (by simpa using hc) h
  exact hcs.suffixChars_ne ss hne _ hbehind

/-! ## The forms of rules -/

/-- A text can be read in one way only. -/
lemma reads_literal (s : String) : Reads nameOf known (.literal s : Rule ν α) := by
  refine .of_bare (.literal s) fun other hother hbare hlead ss ts cs rest hcs hrest hsame => ?_
  cases hother with
  | literal t =>
    rw [spelled_literal, spelled_literal, List.append_assoc, List.append_assoc] at hsame
    obtain ⟨rfl, hbehind⟩ := quote_append_unique hsame
    obtain ⟨rfl, rfl⟩ := suffixes_unique hcs hrest hbehind
    exact ⟨rfl, rfl⟩
  | repetition | optional => cases hbare
  | named | sequence | choice | lookahead | capture | bind => cases hlead

/-- If named rules of different names are different ones, then a name can be read in one way
only. -/
lemma reads_named (hnames : ∀ x y, known x → known y → nameOf x = nameOf y → x = y) {x : ν}
    (hx : known x) (hname : IsName (nameOf x)) : Reads nameOf known (.named x : Rule ν α) := by
  refine .of_bare (.named hx hname) fun other hother hbare hlead ss ts cs rest hcs hrest hsame => ?_
  rw [spelled_named] at hsame
  cases hother with
  | @named y hy hname' =>
    rw [spelled_named, List.append_assoc, List.append_assoc] at hsame
    obtain ⟨hxy, hbehind⟩ :=
      hname.append_unique hname' (hcs.head_mem_signs ss) (hrest.head_mem_signs ts) hsame
    obtain rfl := hnames x y hx hy hxy
    obtain ⟨rfl, rfl⟩ := suffixes_unique hcs hrest hbehind
    exact ⟨rfl, rfl⟩
  | capture hname' =>
    rw [spelled_capture] at hsame
    exact absurd hsame (named_ne hname hname' (by decide) (by decide) hcs)
  | bind hname' =>
    rw [spelled_bind] at hsame
    exact absurd hsame (named_ne hname hname' (by decide) (by decide) hcs)
  | repetition | optional => cases hbare
  | literal | sequence | choice | lookahead => cases hlead

section

variable {rules : List (Rule ν α)} (hlength : rules.length ≠ 1)
  (hrules : ∀ rule ∈ rules, Regular nameOf known rule ∧ Reads nameOf known rule)

include hlength hrules

/-- What is spelled as a row in parentheses and has that row for its standard form can be read in
one way only. -/
lemma Reads.of_row {isChoice : Bool} (h : Regular nameOf known rule) (hrow : rule.lead = .row)
    (hspelled : ∀ ss,
      spelled nameOf rule ss = '(' :: (spelledRow nameOf isChoice rules ++ ')' :: suffixChars ss))
    (hstandard : ∀ ss,
      rule.standardWith ss = wrap (row isChoice (standardWith.standardParts rules)) ss) :
    Reads nameOf known rule := by
  refine .of_bare h fun other hother hbare hlead ss ts cs rest hcs hrest hsame => ?_
  rw [hspelled] at hsame
  rw [hstandard]
  rw [hrow] at hlead
  cases hother with
  | sequence hlength' hothers =>
    rw [spelled_sequence] at hsame
    exact parenthesised_unique hrules hlength hothers hlength' hcs hrest hsame
  | choice hlength' hothers =>
    rw [spelled_choice] at hsame
    exact parenthesised_unique hrules hlength hothers hlength' hcs hrest hsame
  | repetition | optional => cases hbare
  | literal | named | lookahead | capture | bind => cases hlead

/-- A sequence can be read in one way only if its parts can. -/
lemma reads_sequence : Reads nameOf known (.sequence rules) :=
  .of_row hlength hrules (.sequence hlength fun rule hrule => (hrules rule hrule).1) rfl
    (spelled_sequence nameOf rules) fun _ => rfl

/-- A choice can be read in one way only if its alternatives can. -/
lemma reads_choice : Reads nameOf known (.choice rules) :=
  .of_row hlength hrules (.choice hlength fun rule hrule => (hrules rule hrule).1) rfl
    (spelled_choice nameOf rules) fun _ => rfl

end

section

variable (h : Regular nameOf known rule) (hreads : Reads nameOf known rule)

include hreads

/-- A repetition is its rule with one more suffix. -/
lemma Reads.repetition (least : Int) (most : Option Int) :
    Reads nameOf known (.repetition rule least most) := by
  intro other hother ss ts cs rest hcs hrest hsame
  rw [spelled_repetition] at hsame
  exact hreads hother hcs hrest hsame

/-- An option is its rule with one more suffix. -/
lemma Reads.optional : Reads nameOf known (.optional rule) := by
  intro other hother ss ts cs rest hcs hrest hsame
  rw [spelled_optional] at hsame
  exact hreads hother hcs hrest hsame

include h

/-- A lookahead can be read in one way only if its rule can: its sign tells the kind. -/
lemma Reads.lookahead (negative : Bool) : Reads nameOf known (.lookahead negative rule) := by
  refine .of_bare (.lookahead negative h)
    fun other hother hbare hlead ss ts cs rest hcs hrest hsame => ?_
  rw [spelled_lookahead] at hsame
  cases hother with
  | lookahead negative' hother =>
    rw [spelled_lookahead] at hsame
    have hnegative : negative = negative' := by
      cases negative <;> cases negative'
      · rfl
      · exact absurd (List.cons.inj hsame).1 (by decide)
      · exact absurd (List.cons.inj hsame).1 (by decide)
      · rfl
    obtain ⟨hinner, hbehind⟩ := hreads hother hcs hrest (List.cons.inj hsame).2
    rw [standardWith, standardWith, hnegative, hinner]
    exact ⟨rfl, hbehind⟩
  | repetition | optional => cases hbare
  | literal | named | sequence | choice | capture | bind => cases hlead

/-- A capture can be read in one way only if its rule can: its name ends with the colon. -/
lemma Reads.capture {name : String} (hname : IsName name) :
    Reads nameOf known (.capture name rule) := by
  refine .of_bare (.capture hname h)
    fun other hother hbare hlead ss ts cs rest hcs hrest hsame => ?_
  rw [spelled_capture] at hsame
  cases hother with
  | capture hname' hother =>
    rw [spelled_capture] at hsame
    obtain ⟨rfl, -, hsame⟩ := labelled_unique hname hname' (by decide) (by decide) hsame
    obtain ⟨hinner, hbehind⟩ := hreads hother hcs hrest hsame
    rw [standardWith, standardWith, hinner]
    exact ⟨rfl, hbehind⟩
  | bind hname' =>
    rw [spelled_bind] at hsame
    exact absurd (labelled_unique hname hname' (by decide) (by decide) hsame).2.1 (by decide)
  | named _ hname' =>
    rw [spelled_named] at hsame
    exact absurd hsame.symm (named_ne hname' hname (by decide) (by decide) hrest)
  | repetition | optional => cases hbare
  | literal | sequence | choice | lookahead => cases hlead

/-- A binding can be read in one way only if its rule can: its name ends with the equals sign. -/
lemma Reads.bind {name : String} (hname : IsName name) : Reads nameOf known (.bind name rule) := by
  refine .of_bare (.bind hname h) fun other hother hbare hlead ss ts cs rest hcs hrest hsame => ?_
  rw [spelled_bind] at hsame
  cases hother with
  | bind hname' hother =>
    rw [spelled_bind] at hsame
    obtain ⟨rfl, -, hsame⟩ := labelled_unique hname hname' (by decide) (by decide) hsame
    obtain ⟨hinner, hbehind⟩ := hreads hother hcs hrest hsame
    rw [standardWith, standardWith, hinner]
    exact ⟨rfl, hbehind⟩
  | capture hname' =>
    rw [spelled_capture] at hsame
    exact absurd (labelled_unique hname hname' (by decide) (by decide) hsame).2.1 (by decide)
  | named _ hname' =>
    rw [spelled_named] at hsame
    exact absurd hsame.symm (named_ne hname' hname (by decide) (by decide) hrest)
  | repetition | optional => cases hbare
  | literal | sequence | choice | lookahead => cases hlead

end

section

variable (hnames : ∀ x y, known x → known y → nameOf x = nameOf y → x = y)

include hnames

/-- If named rules of different names are different ones, then the characters of a regular rule can
be read in one way only.

**Proof sketch.** Induction on the rule. A bare rule is told by its first character, and, if that is
the one of a name, by the sign behind the name. What it is made of ends where it is closed, so what
follows can be cancelled. -/
theorem Regular.reads (h : Regular nameOf known rule) : Reads nameOf known rule := by
  induction h with
  | literal s => exact reads_literal s
  | named hx hname => exact reads_named hnames hx hname
  | sequence hlength hrules ih =>
    exact reads_sequence hlength fun rule hrule => ⟨hrules rule hrule, ih rule hrule⟩
  | choice hlength hrules ih =>
    exact reads_choice hlength fun rule hrule => ⟨hrules rule hrule, ih rule hrule⟩
  | repetition least most _ ih => exact ih.repetition least most
  | optional _ ih => exact ih.optional
  | lookahead negative h ih => exact ih.lookahead h negative
  | capture hname h ih => exact ih.capture h hname
  | bind hname h ih => exact ih.bind h hname

/-! ## Notations -/

omit hnames in
/-- The notation of a row is that of its rules, without parentheses; other notations are the same
inside a row. -/
lemma Regular.toList_render (h : Regular nameOf known rule) :
    (∃ isChoice rules, rules.length ≠ 1 ∧ (∀ part ∈ rules, Regular nameOf known part) ∧
      (rule.render nameOf).toList = spelledRow nameOf isChoice rules ∧
      rule.standard = row isChoice (rules.map standard)) ∨
    (rule.render nameOf).toList = spelled nameOf rule [] := by
  have hbare : rule.isCompound = false → (rule.render nameOf).toList = spelled nameOf rule [] := by
    intro hcompound
    rw [spelled, hcompound, parenthesise, suffixChars, List.flatMap_nil, List.append_nil,
      if_neg Bool.false_ne_true]
  cases h with
  | @sequence rules hlength hrules =>
    refine .inl ⟨false, rules, hlength, hrules, toList_render_sequence nameOf rules, ?_⟩
    rw [standard, standardWith, standardParts_eq]
    rfl
  | @choice rules hlength hrules =>
    refine .inl ⟨true, rules, hlength, hrules, toList_render_choice nameOf rules, ?_⟩
    rw [standard, standardWith, standardParts_eq]
    rfl
  | literal | named | repetition | optional | lookahead | capture | bind => exact .inr (hbare rfl)

/-- A row without parentheses has not the characters of one rule. -/
lemma spelledRow_ne {isChoice : Bool} {rules : List (Rule ν α)} (hlength : rules.length ≠ 1)
    (hrules : ∀ part ∈ rules, Regular nameOf known part) (hother : Regular nameOf known other) :
    spelledRow nameOf isChoice rules ≠ spelled nameOf other [] := by
  intro h
  cases rules with
  | nil =>
    obtain ⟨c, cs, hcs, -⟩ := hother.exists_head []
    rw [hcs] at h
    cases h
  | cons rule rules =>
    rw [spelledRow_cons] at h
    -- With a parenthesis behind both, the first rule can be cancelled, and nothing may be left of
    -- the row.
    have hclosed : spelled nameOf rule [] ++ (spelledTail nameOf isChoice rules ++ [')']) =
        spelled nameOf other [] ++ [')'] := by rw [← List.append_assoc, h]
    obtain ⟨-, htail⟩ := (hrules rule List.mem_cons_self).reads hnames hother (closes_tail _ _ _)
      (closes_cons (.inr rfl) []) hclosed
    cases rules with
    | nil => exact hlength rfl
    | cons next rules => cases isChoice <;> exact absurd (List.cons.inj htail).1 (by decide)

/-- If named rules of different names are different ones, then regular rules have the same notation
just if they have the same standard form. -/
theorem render_eq_iff (h : Regular nameOf known rule) (hother : Regular nameOf known other) :
    rule.render nameOf = other.render nameOf ↔ rule.standard = other.standard := by
  constructor
  · intro hsame
    have hchars := congrArg String.toList hsame
    obtain ⟨isChoice, rules, hlength, hrules, hrow, hstandard⟩ | hone := h.toList_render <;>
      obtain ⟨isChoice', others, hlength', hothers, hrow', hstandard'⟩ | hone' :=
        hother.toList_render
    · rw [hrow, hrow'] at hchars
      have hparts :=
        fun part hpart => And.intro (hrules part hpart) ((hrules part hpart).reads hnames)
      have hclosed : spelledRow nameOf isChoice rules ++ [')'] =
          spelledRow nameOf isChoice' others ++ [')'] := by
        rw [hchars]
      rw [hstandard, hstandard', (row_unique hparts hlength hothers hlength' hclosed).1]
    · rw [hrow, hone'] at hchars
      exact absurd hchars (spelledRow_ne hnames hlength hrules hother)
    · rw [hone, hrow'] at hchars
      exact absurd hchars.symm (spelledRow_ne hnames hlength' hothers h)
    · rw [hone, hone', ← List.append_nil (spelled _ _ _),
        ← List.append_nil (spelled _ other _)] at hchars
      exact (h.reads hnames hother closes_nil closes_nil hchars).1
  · intro hsame
    rw [← render_standard, hsame, render_standard]

end

end Reading

end Packrat.Rule
