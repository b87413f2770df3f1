import Packrat.Proofs.Program.InPlace
set_option autoImplicit false
set_option relaxedAutoImplicit false

/-!
# Texts between delimiters

A string between quotation marks and a regular expression begin with their delimiter and end with
the next one, wherever that is: nothing in between is an escape. A comment begins with its mark and
ends with its line.

All of them are a row of characters that pass a test, up to the first one that does not.

## Main definitions

* `Packrat.Text.RowUpTo` — all characters up to a position pass a test, and none stands there that
  does.
* `Packrat.Text.breakLength` — the length of the line break at a position.
* `Packrat.Program.Phrase.delimiter?` — the delimiter of a phrase, and the node of the text between
  two of them.

## Main results

* `Packrat.Text.rowUpTo_iff` — such a row is the first part of what is ahead.
* `Packrat.Program.delimited_matches` — when there is such a text at a position, where it ends, and
  what its node is.
-/

namespace Packrat

namespace Text

/-- All characters from one position up to another pass a test, and there is none at the latter that
does. -/
structure RowUpTo (t : Text) (test : Char → Bool) (start stop : Nat) : Prop where
  le : start ≤ stop
  within : ∀ i, start ≤ i → i < stop → (t.char? i).any test = true
  ends : (t.char? stop).any test = false

/-- The length of the line break at a position. A carriage return and a line feed are one line
break. -/
def breakLength (t : Text) (position : Nat) : Nat :=
  if t.char? position = some '\r' ∧ t.char? (position + 1) = some '\n' then 2
  else if (t.char? position).any endsLine then 1 else 0

section

variable {text : String} {start : Nat} {cs : List Char}

/-- The characters ahead, by their positions. -/
lemma char?_of_drop (h : text.toList.drop start = cs) (i : Nat) :
    (ofString text).char? (start + i) = cs[i]? := by
  rw [← h, List.getElem?_drop, ofString, char?, List.getElem?_toArray]

/-- What is ahead of a position up to some others is a slice of the text. -/
lemma slice_of_drop {a r : List Char} (h : text.toList.drop start = a ++ r) :
    (ofString text).slice start (start + a.length) = String.ofList a := by
  rw [ofString, slice, Array.toList_extract, List.extract_eq_take_drop, h, Nat.add_sub_cancel_left,
    List.take_left]

/-- A character is the first of those ahead if it stands at the position. -/
lemma drop_of_char? {c : Char} (h : (ofString text).char? start = some c) :
    text.toList.drop start = c :: text.toList.drop (start + 1) := by
  rw [ofString, char?, List.getElem?_toArray] at h
  obtain ⟨hlt, rfl⟩ := List.getElem?_eq_some_iff.1 h
  exact List.drop_eq_getElem_cons hlt

/-- There is only one position up to which all characters pass a test. -/
lemma RowUpTo.unique {t : Text} {test : Char → Bool} {stop stop' : Nat}
    (h : t.RowUpTo test start stop) (h' : t.RowUpTo test start stop') : stop = stop' := by
  rcases Nat.lt_trichotomy stop stop' with hlt | heq | hlt
  · exact absurd (h'.within stop h.le hlt) (by simp [h.ends])
  · exact heq
  · exact absurd (h.within stop' h'.le hlt) (by simp [h'.ends])

/-- The first part of the characters ahead is such a row if the rest begins with none that passes
the test. -/
lemma RowUpTo.of_drop {test : Char → Bool} {a r : List Char} (h : text.toList.drop start = a ++ r)
    (ha : ∀ c ∈ a, test c = true) (hr : ∀ c ∈ r.head?, test c = false) :
    (ofString text).RowUpTo test start (start + a.length) where
  le := Nat.le_add_right start a.length
  within i hi hlt := by
    obtain ⟨n, rfl⟩ := Nat.exists_eq_add_of_le hi
    have hn : n < a.length := by omega
    rw [char?_of_drop h, List.getElem?_append_left hn, List.getElem?_eq_getElem hn]
    exact ha _ (List.getElem_mem hn)
  ends := by
    rw [char?_of_drop h, List.getElem?_append_right (Nat.le_refl _), Nat.sub_self,
      ← List.head?_eq_getElem?]
    cases hhead : r.head? with
    | none => rfl
    | some c => exact hr c hhead

/-- There always is such a row. -/
lemma exists_rowUpTo (text : String) (test : Char → Bool) (start : Nat) :
    ∃ stop, (ofString text).RowUpTo test start stop := by
  obtain ⟨a, r, hahead, ha, hr⟩ := exists_split test (text.toList.drop start)
  exact ⟨_, .of_drop hahead ha hr⟩

/-- A character that stands at a later position stands next at the end of the row of all others. -/
lemma exists_next {mark : Char} {later : Nat} (hle : start ≤ later)
    (h : (ofString text).char? later = some mark) :
    ∃ stop, (ofString text).RowUpTo (· != mark) start stop ∧
      (ofString text).char? stop = some mark := by
  obtain ⟨stop, hrow⟩ := exists_rowUpTo text (· != mark) start
  have hstop : stop ≤ later := by
    by_contra hlt
    exact absurd (hrow.within later hle (Nat.lt_of_not_le hlt)) (by simp [h])
  obtain ⟨hlt, -⟩ := Array.getElem?_eq_some_iff.1 h
  have hin : (ofString text).char? stop = some (ofString text).chars[stop] :=
    Array.getElem?_eq_getElem (Nat.lt_of_le_of_lt hstop hlt)
  have hends := hrow.ends
  rw [hin] at hends
  exact ⟨stop, hrow, by simpa [hin] using hends⟩

/-- A row of characters that pass a test is the first part of those ahead, and the rest begins with
none that does. -/
theorem rowUpTo_iff {test : Char → Bool} {stop : Nat} :
    (ofString text).RowUpTo test start stop ↔ ∃ a r, text.toList.drop start = a ++ r ∧
      (∀ c ∈ a, test c = true) ∧ (∀ c ∈ r.head?, test c = false) ∧ stop = start + a.length := by
  constructor
  · intro h
    obtain ⟨a, r, hahead, ha, hr⟩ := exists_split test (text.toList.drop start)
    exact ⟨a, r, hahead, ha, hr, h.unique (.of_drop hahead ha hr)⟩
  · rintro ⟨a, r, hahead, ha, hr, rfl⟩
    exact .of_drop hahead ha hr

end

end Text

namespace Program

section

variable {text : String} {position : Nat} {scope : Scope} {limit : Nat} {run : Run Phrase Node}

/-- What a phrase matches whose text stands between two delimiters. -/
lemma quoted_matches {x : Phrase} {mark : Char} {make : String → Node}
    (hread : ReadBy x (quotedAt mark make)) (hrun : run.Sound grammar (.ofString text))
    (hdeep : (grammar.apply (.ofString text) limit (.named x) position scope run).1 ≠
      .stopped .tooDeep)
    (result : Match Node) :
    (grammar.apply (.ofString text) limit (.named x) position scope run).1 = .matched result ↔
      ∃ stop, (Text.ofString text).char? position = some mark ∧
        (Text.ofString text).RowUpTo (· != mark) (position + 1) stop ∧
        (Text.ofString text).char? stop = some mark ∧
        result = ⟨⟨stop + 1,
          some (.object (make ((Text.ofString text).slice (position + 1) stop)))⟩, scope⟩ := by
  rw [hread.apply_eq_matched_iff hrun hdeep]
  constructor
  · rintro ⟨chars, rest, v, hahead, hchars, rfl⟩
    obtain ⟨body, hbody, hquoted, rfl⟩ := quotedAt_eq_some.1 hchars
    rw [hquoted] at hahead
    have hinside : text.toList.drop (position + 1) = body ++ mark :: rest := by
      rw [← List.drop_drop, hahead]
      rfl
    have hlength := congrArg List.length hquoted
    simp only [List.length_append, List.length_cons] at hlength
    refine ⟨position + 1 + body.length, ?_, ?_, ?_, ?_⟩
    · rw [← Nat.add_zero position, Text.char?_of_drop hahead]
      rfl
    · exact .of_drop hinside (bne_of_not_mem hbody) (by simp)
    · rw [Text.char?_of_drop hinside]
      simp
    · rw [Text.slice_of_drop hinside]
      congr 2
      omega
  · rintro ⟨stop, hfirst, hrow, hlast, rfl⟩
    obtain ⟨body, r, hinside, hbody, -, rfl⟩ := Text.rowUpTo_iff.1 hrow
    have hr : r = mark :: r.tail := by
      rw [Text.char?_of_drop hinside, List.getElem?_append_right (Nat.le_refl _), Nat.sub_self,
        ← List.head?_eq_getElem?] at hlast
      exact List.eq_cons_of_mem_head? hlast
    rw [Text.slice_of_drop hinside]
    rw [hr] at hinside
    refine ⟨mark :: (body ++ [mark]), r.tail, make (String.ofList body), ?_, ?_, ?_⟩
    · rw [Text.drop_of_char? hfirst, hinside]
      simp
    · refine quotedAt_eq_some.2 ⟨body, fun hmem => ?_, by simp, rfl⟩
      simpa using hbody mark hmem
    · congr 2
      simp only [List.length_cons, List.length_append, List.length_nil]
      omega

/-- The rest of a line ends with the text or with a line break. -/
lemma breakLength_eq {b rest : List Char} {stop : Nat} (hahead : text.toList.drop stop = b ++ rest)
    (hb : (b = [] ∧ rest = []) ∨ (Break b ∧ behind b rest = rest)) :
    (Text.ofString text).breakLength stop = b.length := by
  have hfirst := Text.char?_of_drop hahead 0
  have hsecond := Text.char?_of_drop hahead 1
  rw [Nat.add_zero] at hfirst
  rw [Text.breakLength, hfirst, hsecond]
  rcases hb with ⟨rfl, rfl⟩ | ⟨hb, hrest⟩
  · rfl
  · cases hb with
    | crlf => rfl
    | lf => rfl
    | cr =>
      cases rest with
      | nil => rfl
      | cons c rest =>
        have hc : c ≠ '\n' := by
          rintro rfl
          exact absurd hrest (by simp [behind])
        simp [hc, endsLine]

/-- What is read of a comment: its mark, the rest of the line, and the line break if there is
one. -/
lemma exists_comment {cs rest : List Char} {v : Node} (h : commentAt cs = some (v, rest)) :
    ∃ body b, WithinLine body ∧ cs = '#' :: (body ++ (b ++ rest)) ∧
      v = .comment (String.ofList body) ∧
      ((b = [] ∧ rest = []) ∨ (Break b ∧ behind b rest = rest)) := by
  obtain ⟨body, hbody, rfl, ⟨rfl, rfl⟩ | ⟨b, hb, rfl, hrest⟩⟩ := commentAt_eq_some.1 h
  · exact ⟨body, [], hbody, by simp, rfl, .inl ⟨rfl, rfl⟩⟩
  · exact ⟨body, b, hbody, rfl, rfl, .inr ⟨hb, hrest⟩⟩

/-- What a comment matches: its mark, the rest of the line, and the line break if there is one. -/
lemma comment_matches (hrun : run.Sound grammar (.ofString text))
    (hdeep : (grammar.apply (.ofString text) limit (.named .comment) position scope run).1 ≠
      .stopped .tooDeep)
    (result : Match Node) :
    (grammar.apply (.ofString text) limit (.named .comment) position scope run).1 =
    .matched result ↔
      ∃ stop, (Text.ofString text).char? position = some '#' ∧
        (Text.ofString text).RowUpTo (!endsLine ·) (position + 1) stop ∧
        result = ⟨⟨stop + (Text.ofString text).breakLength stop,
          some (.object (.comment ((Text.ofString text).slice (position + 1) stop)))⟩, scope⟩ := by
  have hmatched : ∀ result,
      (grammar.apply (.ofString text) limit (.named .comment) position scope run).1 =
      .matched result →
      ∃ stop, (Text.ofString text).char? position = some '#' ∧
        (Text.ofString text).RowUpTo (!endsLine ·) (position + 1) stop ∧
        result = ⟨⟨stop + (Text.ofString text).breakLength stop,
          some (.object (.comment ((Text.ofString text).slice (position + 1) stop)))⟩, scope⟩ := by
    intro result hresult
    obtain ⟨chars, rest, v, hahead, hchars, rfl⟩ :=
      (readBy_comment.apply_eq_matched_iff hrun hdeep result).1 hresult
    obtain ⟨body, b, hbody, hcomment, rfl, hb⟩ := exists_comment hchars
    rw [hcomment] at hahead
    have hinside : text.toList.drop (position + 1) = body ++ (b ++ rest) := by
      rw [← List.drop_drop, hahead]
      rfl
    have hbehind : text.toList.drop (position + 1 + body.length) = b ++ rest := by
      rw [← List.drop_drop, hinside, List.drop_left]
    have hends : ∀ c ∈ (b ++ rest).head?, (!endsLine c) = false := by
      rcases hb with ⟨rfl, rfl⟩ | ⟨hb, -⟩
      · simp
      · obtain ⟨c, more, rfl, hc⟩ := hb.exists_cons
        simp [hc]
    have hlength := congrArg List.length hcomment
    simp only [List.length_append, List.length_cons] at hlength
    refine ⟨position + 1 + body.length, ?_, ?_, ?_⟩
    · rw [← Nat.add_zero position, Text.char?_of_drop hahead]
      rfl
    · exact .of_drop hinside (fun c hc => by simp [hbody c hc]) hends
    · rw [Text.slice_of_drop hinside, breakLength_eq hbehind hb]
      congr 2
      omega
  refine ⟨hmatched result, ?_⟩
  rintro ⟨stop, hmark, hrow, rfl⟩
  have hread : ∃ v rest, commentAt (text.toList.drop position) = some (v, rest) := by
    have hsome := isSome_commentAt (text.toList.drop position)
    rw [Text.drop_of_char? hmark] at hsome ⊢
    obtain ⟨⟨v, rest⟩, hread⟩ := Option.isSome_iff_exists.1 hsome
    exact ⟨v, rest, hread⟩
  obtain ⟨result, hresult⟩ := (readBy_comment.exists_matched_iff hrun hdeep).2 hread
  obtain ⟨stop', -, hrow', rfl⟩ := hmatched result hresult
  rw [hresult, hrow.unique hrow']

end

/-- The delimiter of a phrase, and the node of the text between two of them. -/
def Phrase.delimiter? : Phrase → Option (Char × (String → Node))
  | .singleQuotedString => some ('\x27', .string)
  | .doubleQuotedString => some ('\x22', .string)
  | .regularExpression => some ('/', .regex)
  | _ => none

/-- A phrase with a delimiter is read as a text between two of them, and fits a limit of nine. -/
lemma readBy_of_delimiter? {x : Phrase} {mark : Char} {make : String → Node}
    (h : x.delimiter? = some (mark, make)) :
    ReadBy x (quotedAt mark make) ∧ grammar.fits 9 (.named x) = true := by
  cases x <;> cases h <;> exact ⟨⟨fun _ => rfl, rfl, rfl⟩, by decide +kernel⟩

/-- What stands between delimiters, and what a comment is, at a position, in every sound state and
within any limit that they fit.

* A string between quotation marks or a regular expression is there just if its delimiter is, and
  comes once more later on. It ends behind the next one, and its node has all that is in between.
* A comment is there just if its mark is. It goes on to the end of its line, and takes the line
  break if there is one.

**Proof sketch.** Their readers take a row of characters that pass a test, and there is one position
up to which all do. -/
theorem delimited_matches (text : String) (position : Nat) (scope : Scope) {limit : Nat}
    (hlimit : 12 ≤ limit) {run : Run Phrase Node} (hrun : run.Sound grammar (.ofString text)) :
    (∀ x mark make, Phrase.delimiter? x = some (mark, make) →
      ((∃ result, (grammar.apply (.ofString text) limit (.named x) position scope run).1 =
        .matched result) ↔
        (Text.ofString text).char? position = some mark ∧
          ∃ later, position < later ∧ (Text.ofString text).char? later = some mark) ∧
      ∀ result, (grammar.apply (.ofString text) limit (.named x) position scope run).1 =
        .matched result ↔
        ∃ stop, (Text.ofString text).char? position = some mark ∧
          (Text.ofString text).RowUpTo (· != mark) (position + 1) stop ∧
          (Text.ofString text).char? stop = some mark ∧
          result = ⟨⟨stop + 1,
            some (.object (make ((Text.ofString text).slice (position + 1) stop)))⟩, scope⟩) ∧
    ((∃ result, (grammar.apply (.ofString text) limit (.named .comment) position scope run).1 =
        .matched result) ↔
      (Text.ofString text).char? position = some '#') ∧
    ∀ result, (grammar.apply (.ofString text) limit (.named .comment) position scope run).1 =
      .matched result ↔
      ∃ stop, (Text.ofString text).char? position = some '#' ∧
        (Text.ofString text).RowUpTo (!endsLine ·) (position + 1) stop ∧
        result = ⟨⟨stop + (Text.ofString text).breakLength stop,
          some (.object (.comment ((Text.ofString text).slice (position + 1) stop)))⟩, scope⟩ := by
  have hfits : grammar.fits 12 (.named .comment) = true := by decide +kernel
  have hdeep := not_tooDeep_of_fits hfits hlimit text position scope run
  refine ⟨fun x mark make hx => ?_, ?_, comment_matches hrun hdeep⟩
  · obtain ⟨hread, hfits⟩ := readBy_of_delimiter? hx
    have hdeep :=
      not_tooDeep_of_fits hfits (Nat.le_trans (by decide) hlimit) text position scope run
    refine ⟨?_, quoted_matches hread hrun hdeep⟩
    simp only [quoted_matches hread hrun hdeep]
    constructor
    · rintro ⟨-, stop, hfirst, hrow, hlast, -⟩
      exact ⟨hfirst, stop, hrow.le, hlast⟩
    · rintro ⟨hfirst, later, hlt, hlater⟩
      obtain ⟨stop, hrow, hstop⟩ := Text.exists_next hlt hlater
      exact ⟨_, stop, hfirst, hrow, hstop, rfl⟩
  · simp only [comment_matches hrun hdeep]
    constructor
    · rintro ⟨-, stop, hmark, -⟩
      exact hmark
    · intro hmark
      obtain ⟨stop, hrow⟩ := Text.exists_rowUpTo text (!endsLine ·) (position + 1)
      exact ⟨_, stop, hmark, hrow, rfl⟩

/-- A regular expression with a quotation mark and a line break in it, behind which there is another
slash. -/
theorem delimited_matches_regex :
    12 ≤ 12 ∧ (Run.fresh true false).Sound grammar (.ofString "[/a\x22\n/, 1/") ∧
      ∃ result, (grammar.apply (.ofString "[/a\x22\n/, 1/") 12 (.named .regularExpression) 1 []
        (.fresh true false)).1 = .matched result := by
  have hsound : (Run.fresh true false).Sound grammar (.ofString "[/a\x22\n/, 1/") :=
    Run.sound_fresh true false
  refine ⟨le_refl 12, hsound, ?_⟩
  exact (((delimited_matches _ 1 [] (le_refl 12) hsound).1 .regularExpression '/' .regex rfl).1).2
    ⟨by decide, 5, by decide, by decide⟩

end Program

end Packrat
