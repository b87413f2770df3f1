import Mathlib.Algebra.Group.Nat.Defs
import Mathlib.Tactic.Lemma
import Packrat.Proofs.Matching.Repeating
import Packrat.Text.Quoted
set_option autoImplicit false
set_option relaxedAutoImplicit false

/-!
# Reading quoted text

Each written character can be read back off the front of what follows the mark, so no two texts are
quoted alike. Only printable characters are used to write any of them; in particular, a quoted text
stays on its line.

## Main definitions

* `Packrat.Quoted.next?` — the first character that is written, and what is behind it.
* `Packrat.unquote` — the text whose quoted form it is.

## Main results

* `Packrat.Quoted.next?_escape` — the first written character is read back.
* `Packrat.unquote_quote` — a quoted text is read back.
* `Packrat.quote_append_unique` — it is read off the front of what it stands in front of.
* `Packrat.printable_of_mem_quote` — quoted texts are printable.
-/

namespace Packrat

namespace Quoted

/-! ## Hexadecimal digits -/

/-- The value of a hexadecimal digit. -/
def digitValue (d : Char) : Nat := if d.toNat < 0x61 then d.toNat - 0x30 else d.toNat - 0x57

/-- The number that hexadecimal digits stand for. -/
def number (ds : List Char) : Nat := ds.foldl (fun n d => 16 * n + digitValue d) 0

/-- The value of a digit is the number that it was written for. -/
lemma digitValue_digitChar : ∀ n < 16, digitValue (Nat.digitChar n) = n := by decide

/-- The digits are printable. -/
lemma printable_digitChar : ∀ n < 16, isUnprintable (Nat.digitChar n) = false := by decide

/-- A number is written in as many digits as are asked for. -/
lemma length_hexDigits (width n : Nat) : (hexDigits width n).length = width := by
  induction width generalizing n with
  | zero => rfl
  | succ width ih => rw [hexDigits, List.length_append, ih, List.length_singleton]

/-- The last digits of a number stand for its remainder. -/
lemma number_hexDigits (width n : Nat) : number (hexDigits width n) = n % 16 ^ width := by
  induction width generalizing n with
  | zero => simp [hexDigits, number, Nat.mod_one]
  | succ width ih =>
    have hlast : digitValue (Nat.digitChar (n % 16)) = n % 16 :=
      digitValue_digitChar _ (Nat.mod_lt n (by decide))
    have happend : number (hexDigits width (n / 16) ++ [Nat.digitChar (n % 16)]) =
        16 * number (hexDigits width (n / 16)) + digitValue (Nat.digitChar (n % 16)) := by
      simp [number, List.foldl_append]
    rw [hexDigits, happend, hlast, ih, Nat.pow_succ, Nat.mul_comm (16 ^ width), Nat.mod_mul]
    omega

/-- What is written in digits is printable. -/
lemma printable_of_mem_hexDigits {width n : Nat} {d : Char} (h : d ∈ hexDigits width n) :
    isUnprintable d = false := by
  induction width generalizing n with
  | zero => cases h
  | succ width ih =>
    rcases List.mem_append.1 h with h | h
    · exact ih h
    · rw [List.mem_singleton.1 h]
      exact printable_digitChar _ (Nat.mod_lt n (by decide))

/-! ## Reading a character back -/

/-- The number of digits behind a letter that announces a code point. -/
def width? (letter : Char) : Option Nat :=
  if letter = 'x' then some 2
  else if letter = 'u' then some 4
  else if letter = 'U' then some 8
  else none

/-- The character for which a letter behind a backslash stands. -/
def escaped (letter : Char) : Char :=
  if letter = 'n' then '\n'
  else if letter = 'r' then '\r'
  else if letter = 't' then '\t'
  else letter

/-- The first character that is written, and what is behind it. -/
def next? : List Char → Option (Char × List Char)
  | [] => none
  | [c] => some (c, [])
  | c :: letter :: cs =>
    if c = '\x5c' then
      match width? letter with
      | some width => some (Char.ofNat (number (cs.take width)), cs.drop width)
      | none => some (escaped letter, cs)
    else some (c, letter :: cs)

/-- A character that is no backslash is read as it stands. -/
lemma next?_of_ne {c : Char} (h : c ≠ '\x5c') (cs : List Char) :
    next? (c :: cs) = some (c, cs) := by
  cases cs with
  | nil => rfl
  | cons letter cs => rw [next?, if_neg h]

/-- A letter behind a backslash that announces no code point is read as what it stands for. -/
lemma next?_letter {letter : Char} (h : width? letter = none) (cs : List Char) :
    next? ('\x5c' :: letter :: cs) = some (escaped letter, cs) := by
  rw [next?, if_pos rfl, h]

/-- A code point is read back if it has no more digits than are written. -/
lemma next?_hexDigits {letter c : Char} {width : Nat} (h : width? letter = some width)
    (hc : c.toNat < 16 ^ width) (cs : List Char) :
    next? ('\x5c' :: letter :: (hexDigits width c.toNat ++ cs)) = some (c, cs) := by
  have hlength := length_hexDigits width c.toNat
  rw [next?, if_pos rfl, h]
  simp only [List.take_left' hlength, List.drop_left' hlength, number_hexDigits,
    Nat.mod_eq_of_lt hc, Char.ofNat_toNat]

/-- Reading a character back takes at least one. -/
lemma advances_next? : Advances next? := by
  intro cs c rest h
  match cs with
  | [d] =>
    cases h
    exact ⟨[c], by simp, rfl⟩
  | d :: letter :: cs =>
    rw [next?] at h
    split at h
    · split at h
      · rename_i width _
        cases h
        exact ⟨d :: letter :: cs.take width, by simp, by simp⟩
      · cases h
        exact ⟨[d, letter], by simp, rfl⟩
    · cases h
      exact ⟨[c], by simp, rfl⟩

/-- The mark around a text is one of the two quotation marks. -/
lemma mark_cases (cs : List Char) : mark cs = '\x27' ∨ mark cs = '\x22' := by
  rw [mark]
  split
  · exact .inr rfl
  · exact .inl rfl

/-- A code point has as many digits as its letter announces, and they are enough. -/
lemma byCodePoint_cases (c : Char) : ∃ letter width, width? letter = some width ∧
    isUnprintable letter = false ∧ c.toNat < 16 ^ width ∧
    byCodePoint c = '\x5c' :: letter :: hexDigits width c.toNat := by
  have hvalid := c.valid
  simp only [UInt32.isValidChar, Nat.isValidChar] at hvalid
  have hc : c.toNat < 16 ^ 8 := by
    simp only [Char.toNat]
    omega
  rw [byCodePoint]
  split
  · exact ⟨'x', 2, rfl, rfl, by omega, rfl⟩
  · split
    · exact ⟨'u', 4, rfl, rfl, by omega, rfl⟩
    · exact ⟨'U', 8, rfl, rfl, hc, rfl⟩

section

variable {m : Char} (hm : m = '\x27' ∨ m = '\x22')

include hm

/-- A character is written by a letter behind a backslash, by its code point, or as it is. -/
lemma escape_cases (c : Char) :
    (∃ letter, width? letter = none ∧ isUnprintable letter = false ∧ escaped letter = c ∧
      escape m c = ['\x5c', letter]) ∨
    (∃ letter width, width? letter = some width ∧ isUnprintable letter = false ∧
      c.toNat < 16 ^ width ∧
      escape m c = '\x5c' :: letter :: hexDigits width c.toNat) ∨
    (c ≠ '\x5c' ∧ isUnprintable c = false ∧ escape m c = [c]) := by
  by_cases hself : c = m ∨ c = '\x5c'
  · have hescape : escape m c = ['\x5c', c] := if_pos hself
    rcases hself with rfl | rfl
    · rcases hm with rfl | rfl <;> exact .inl ⟨_, rfl, rfl, rfl, hescape⟩
    · exact .inl ⟨_, rfl, rfl, rfl, hescape⟩
  · rw [escape, if_neg hself]
    split
    · rename_i hc
      exact .inl ⟨'n', rfl, rfl, hc.symm, rfl⟩
    split
    · rename_i hc
      exact .inl ⟨'r', rfl, rfl, hc.symm, rfl⟩
    split
    · rename_i hc
      exact .inl ⟨'t', rfl, rfl, hc.symm, rfl⟩
    split
    · exact .inr (.inl (byCodePoint_cases c))
    · rename_i hprintable
      exact .inr (.inr ⟨fun hc => hself (.inr hc), by simpa using hprintable, rfl⟩)

/-- The first written character is read back. -/
theorem next?_escape (c : Char) (cs : List Char) : next? (escape m c ++ cs) = some (c, cs) := by
  obtain ⟨letter, hletter, -, rfl, h⟩ | ⟨letter, width, hletter, -, hc, h⟩ | ⟨hc, -, h⟩ :=
    escape_cases hm c
  · rw [h]
    exact next?_letter hletter cs
  · rw [h]
    exact next?_hexDigits hletter hc cs
  · rw [h]
    exact next?_of_ne hc cs

/-- Only printable characters are used to write a character. -/
lemma printable_of_mem_escape {c d : Char} (h : d ∈ escape m c) : isUnprintable d = false := by
  obtain ⟨letter, -, hletter, -, he⟩ | ⟨letter, width, -, hletter, -, he⟩ | ⟨-, hc, he⟩ :=
    escape_cases hm c
  · rw [he] at h
    rcases List.mem_cons.1 h with rfl | h
    · rfl
    · rwa [List.mem_singleton.1 h]
  · rw [he] at h
    rcases List.mem_cons.1 h with rfl | h
    · rfl
    · rcases List.mem_cons.1 h with rfl | h
      · exact hletter
      · exact printable_of_mem_hexDigits h
  · rw [he, List.mem_singleton] at h
    rwa [h]

/-- A text is read back, character by character. -/
lemma many_next? (cs : List Char) : many next? (cs.flatMap (escape m)) = (cs, []) := by
  induction cs with
  | nil => exact many_of_none rfl
  | cons c cs ih =>
    rw [List.flatMap_cons, many_of_some advances_next? (next?_escape hm c _), ih]

/-- No written character begins with the mark. -/
lemma escape_append_ne (c : Char) (cs rest : List Char) : escape m c ++ cs ≠ m :: rest := by
  have hmark : m ≠ '\x5c' := by rcases hm with rfl | rfl <;> decide
  intro h
  obtain ⟨_, -, -, -, he⟩ | ⟨_, _, -, -, -, he⟩ | ⟨-, -, he⟩ := escape_cases hm c
  · rw [he] at h
    exact hmark (List.cons.inj h).1.symm
  · rw [he] at h
    exact hmark (List.cons.inj h).1.symm
  · rw [he] at h
    obtain rfl : c = m := (List.cons.inj h).1
    rw [escape, if_pos (.inl rfl)] at he
    cases he

/-- A text ends at the first mark that is no part of a written character. -/
lemma escapes_unique : ∀ (s t cs rest : List Char),
    s.flatMap (escape m) ++ m :: cs = t.flatMap (escape m) ++ m :: rest → s = t ∧ cs = rest
  | [], [], _, _, h => ⟨rfl, (List.cons.inj h).2⟩
  | [], d :: t, cs, rest, h => by
    rw [List.flatMap_cons, List.append_assoc] at h
    exact absurd h.symm (escape_append_ne hm d _ _)
  | c :: s, [], cs, rest, h => by
    rw [List.flatMap_cons, List.append_assoc] at h
    exact absurd h (escape_append_ne hm c _ _)
  | c :: s, d :: t, cs, rest, h => by
    rw [List.flatMap_cons, List.flatMap_cons, List.append_assoc, List.append_assoc] at h
    have hnext := next?_escape hm c (s.flatMap (escape m) ++ m :: cs)
    rw [h, next?_escape hm d] at hnext
    obtain ⟨rfl, hrest⟩ := Prod.mk.inj (Option.some.inj hnext)
    obtain ⟨rfl, rfl⟩ := escapes_unique s t cs rest hrest.symm
    exact ⟨rfl, rfl⟩

end

/-! ## Quoted texts -/

/-- What characters are written as is printable. -/
lemma printable_of_mem_chars {cs : List Char} {d : Char} (h : d ∈ chars cs) :
    isUnprintable d = false := by
  have hmark : isUnprintable (mark cs) = false := by
    rcases mark_cases cs with h | h <;> rw [h] <;> rfl
  rw [chars, List.cons_append, List.mem_cons, List.mem_append, List.mem_singleton, body,
    List.mem_flatMap] at h
  rcases h with rfl | ⟨c, -, h⟩ | rfl
  · exact hmark
  · exact printable_of_mem_escape (mark_cases cs) h
  · exact hmark

end Quoted

/-- The text whose quoted form it is. -/
def unquote (cs : List Char) : String := String.ofList (many Quoted.next? cs.tail.dropLast).1

/-- A quoted text is read back. -/
theorem unquote_quote (s : String) : unquote (quote s).toList = s := by
  rw [unquote, quote, String.toList_ofList, Quoted.chars, List.cons_append, List.tail_cons,
    List.dropLast_concat, Quoted.body, Quoted.many_next? (Quoted.mark_cases s.toList),
    String.ofList_toList]

/-- A quoted text is read off the front of what it stands in front of. -/
theorem quote_append_unique {s t : String} {cs rest : List Char}
    (h : (quote s).toList ++ cs = (quote t).toList ++ rest) : s = t ∧ cs = rest := by
  simp only [quote, String.toList_ofList, Quoted.chars, List.cons_append, List.append_assoc,
    List.nil_append] at h
  obtain ⟨hmark, h⟩ := List.cons.inj h
  rw [Quoted.body, Quoted.body, ← hmark] at h
  obtain ⟨htext, hrest⟩ := Quoted.escapes_unique (Quoted.mark_cases s.toList) _ _ _ _ h
  exact ⟨String.toList_inj.1 htext, hrest⟩

/-- Quoted texts are printable. -/
theorem printable_of_mem_quote {s : String} {d : Char} (h : d ∈ (quote s).toList) :
    isUnprintable d = false := by
  rw [quote, String.toList_ofList] at h
  exact Quoted.printable_of_mem_chars h

/-- A quoted text stays on its line. -/
theorem newline_not_mem_quote (s : String) : '\n' ∉ (quote s).toList := fun h =>
  absurd (printable_of_mem_quote h) (by decide)

end Packrat
