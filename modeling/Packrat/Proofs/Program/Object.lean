import Packrat.Proofs.Program.Simple
set_option autoImplicit false
set_option relaxedAutoImplicit false

/-!
# Reading objects

Composite objects have objects in them. Their readers are given by how the objects inside are read;
the reader of objects is the one that reads those inside as it reads itself. It exists since every
object inside is shorter.

## Main definitions

* `Packrat.Program.keyValueWith`, `Packrat.Program.hashWith`, `Packrat.Program.listWith` — read
  composite objects, given how objects inside are read.
* `Packrat.Program.objectAt` — reads an object.

## Main results

* `Packrat.Program.objectAt_eq` — objects inside an object are read as objects.
-/

namespace Packrat.Program

/-! ## Readers of composite objects -/

/-- Reads a key, a colon and a value. -/
def keyValueWith (inner : Reader) : Reader := fun cs => do
  let (key, cs) ← simpleAt cs
  let cs ← dropChar? (· == ':') (cs.dropWhile isSpace)
  let (value, rest) ← inner (cs.dropWhile isSpace)
  some (.keyValue key value, rest)

/-- The third point of a range, if there is one, and the characters behind it. -/
def exclusivityAt : List Char → Option String × List Char
  | '.' :: cs => (some ".", cs)
  | cs => (none, cs)

/-- Reads a range: two or three points between its ends. -/
def rangeAt : Reader := fun cs => do
  let (start, cs) ← endpointAt cs
  let cs ← (cs.dropWhile isSpace).dropPrefix? ['.', '.']
  let (stop, rest) ← endpointAt ((exclusivityAt cs).2.dropWhile isSpace)
  some (.range start stop (exclusivityAt cs).1, rest)

/-- Reads a comma and the element behind it. -/
def commaThen (element : Reader) : Reader := fun cs => do
  let cs ← dropChar? (· == ',') (cs.dropWhile isBlank)
  element (cs.dropWhile isBlank)

/-- Reads elements with a comma between each two. -/
def elementsWith (element : Reader) (cs : List Char) : List Node × List Char :=
  match element cs with
  | none => ([], cs)
  | some (node, rest) =>
    (node :: (many (commaThen element) rest).1, (many (commaThen element) rest).2)

/-- Reads elements between two marks. -/
def delimitedWith (opening closing : Char) (element : Reader) (cs : List Char) :
    Option (List Node × List Char) := do
  let cs ← dropChar? (· == opening) cs
  let elements := elementsWith element (cs.dropWhile isBlank)
  let rest ← dropChar? (· == closing) (elements.2.dropWhile isBlank)
  some (elements.1, rest)

/-- Reads a hash, whose pairs have the given values. -/
def hashWith (inner : Reader) : Reader := fun cs =>
  (delimitedWith '\x7b' '\x7d' (keyValueWith inner) cs).map fun (nodes, rest) => (.hash nodes, rest)

/-- Reads a list of the given items. -/
def listWith (inner : Reader) : Reader := fun cs =>
  (delimitedWith '[' ']' inner cs).map fun (nodes, rest) => (.list nodes, rest)

/-- Reads a pair, a range, a hash or a list. -/
def compositeWith (inner : Reader) : Reader := fun cs =>
  (keyValueWith inner cs).or ((rangeAt cs).or ((hashWith inner cs).or (listWith inner cs)))

/-- Reads an object: one with parts, or a simple one. -/
def objectWith (inner : Reader) : Reader := fun cs => (compositeWith inner cs).or (simpleAt cs)

/-- Reads an object. -/
def objectAt (cs : List Char) : Option (Node × List Char) :=
  objectWith (fun rest => if rest.length < cs.length then objectAt rest else none) cs
termination_by cs.length

/-! ## Objects inside are shorter -/

/-- What is read in front of other characters as on its own takes a character. -/
lemma Reader.Cuts.advances {read : Reader} (h : read.Cuts) : Advances read := by
  intro cs v rest hread
  obtain ⟨a, hne, hcs, -⟩ := h.alone cs v rest hread
  exact ⟨a, hne, hcs⟩

/-- There are no more characters behind those that are dropped. -/
lemma length_dropWhile_le (test : Char → Bool) (cs : List Char) :
    (cs.dropWhile test).length ≤ cs.length := (List.dropWhile_suffix test).length_le

/-- There are fewer characters behind one that is dropped. -/
lemma length_dropChar? {test : Char → Bool} {cs rest : List Char}
    (h : dropChar? test cs = some rest) : rest.length < cs.length := by
  obtain ⟨c, -, rfl⟩ := dropChar?_eq_some.1 h
  exact Nat.lt_succ_self _

/-- The readers read the same off texts that are shorter. -/
def AgreeBelow (cs : List Char) (inner other : Reader) : Prop :=
  ∀ rest : List Char, rest.length < cs.length → inner rest = other rest

/-- Readers that agree on shorter texts agree on those that are still shorter. -/
lemma AgreeBelow.mono {cs rest : List Char} {inner other : Reader} (h : AgreeBelow cs inner other)
    (hle : rest.length ≤ cs.length) : AgreeBelow rest inner other :=
  fun more hlt => h more (Nat.lt_of_lt_of_le hlt hle)

/-- A pair is read the same by readers that agree on shorter texts, as its key takes a character. -/
lemma keyValueWith_congr {cs : List Char} {inner other : Reader} (h : AgreeBelow cs inner other) :
    keyValueWith inner cs = keyValueWith other cs := by
  unfold keyValueWith
  cases hkey : simpleAt cs with
  | none => rfl
  | some result =>
    obtain ⟨key, behindKey⟩ := result
    have hlt := cuts_simpleAt.advances.length_lt hkey
    have hskip := length_dropWhile_le isSpace behindKey
    simp only [bind, Option.bind_some]
    cases hcolon : dropChar? (· == ':') (behindKey.dropWhile isSpace) with
    | none => rfl
    | some behindColon =>
      have hcolon := length_dropChar? hcolon
      have hspace := length_dropWhile_le isSpace behindColon
      simp only [Option.bind_some]
      rw [h _ (by omega)]

/-- What is behind a comma is read the same by readers that agree on shorter texts. -/
lemma commaThen_congr {cs : List Char} {element other : Reader}
    (h : AgreeBelow cs element other) : commaThen element cs = commaThen other cs := by
  unfold commaThen
  have hskip := length_dropWhile_le isBlank cs
  cases hcomma : dropChar? (· == ',') (cs.dropWhile isBlank) with
  | none => rfl
  | some rest =>
    have hlt := length_dropChar? hcomma
    have hblank := length_dropWhile_le isBlank rest
    exact h _ (by omega)

/-- Steps that agree on all that is not longer are taken as often. -/
lemma many_congr {β : Type} {step other : List Char → Option (β × List Char)} {cs : List Char}
    (h : ∀ rest : List Char, rest.length ≤ cs.length → step rest = other rest) :
    many step cs = many other cs := by
  rw [many, many, h cs (Nat.le_refl _)]
  cases other cs with
  | none => rfl
  | some result =>
    obtain ⟨b, rest⟩ := result
    simp only
    split
    · rw [many_congr fun more hle => h more (by omega)]
    · rfl
termination_by cs.length

/-! ## Every object takes at least one character -/

/-- Characters that are dropped stand in front of the others. -/
lemma exists_taken_dropWhile (test : Char → Bool) (cs : List Char) :
    ∃ taken, cs = taken ++ cs.dropWhile test := ⟨cs.takeWhile test, by simp⟩

section

variable {inner : Reader}

/-- A pair takes a character if its value does. -/
lemma advances_keyValueWith (h : Advances inner) : Advances (keyValueWith inner) := by
  intro cs v rest hread
  simp only [keyValueWith, bind, Option.bind_eq_some_iff, dropChar?_eq_some, Option.some.injEq,
    Prod.mk.injEq] at hread
  obtain ⟨⟨key, left⟩, hkey, behindColon, ⟨c, -, hcolon⟩, ⟨value, _⟩, hvalue, -, rfl⟩ := hread
  obtain ⟨a, ha, rfl⟩ := cuts_simpleAt.advances _ _ _ hkey
  obtain ⟨b, -, hb⟩ := h _ _ _ hvalue
  obtain ⟨pad, hpad⟩ := exists_taken_dropWhile isSpace left
  obtain ⟨more, hmore⟩ := exists_taken_dropWhile isSpace behindColon
  refine ⟨a ++ pad ++ c :: (more ++ b), by simp [ha], ?_⟩
  rw [hpad, hcolon, hmore, hb]
  simp

/-- A range takes a character. -/
lemma advances_rangeAt : Advances rangeAt := by
  intro cs v rest hread
  simp only [rangeAt, bind, Option.bind_eq_some_iff, dropPrefix?_eq_some, Option.some.injEq,
    Prod.mk.injEq] at hread
  obtain ⟨⟨start, left⟩, hstart, behindPoints, hpoints, ⟨stop, _⟩, hstop, -, rfl⟩ := hread
  obtain ⟨a, ha, rfl⟩ := cuts_endpointAt.advances _ _ _ hstart
  obtain ⟨b, -, hb⟩ := cuts_endpointAt.advances _ _ _ hstop
  obtain ⟨pad, hpad⟩ := exists_taken_dropWhile isSpace left
  obtain ⟨more, hmore⟩ := exists_taken_dropWhile isSpace (exclusivityAt behindPoints).2
  obtain ⟨point, hpoint⟩ : ∃ point, behindPoints = point ++ (exclusivityAt behindPoints).2 := by
    fun_cases exclusivityAt behindPoints with
    | case1 cs => exact ⟨['.'], rfl⟩
    | case2 => exact ⟨[], rfl⟩
  refine ⟨a ++ pad ++ ['.', '.'] ++ point ++ more ++ b, by simp [ha], ?_⟩
  rw [hpad, hpoints, hpoint, hmore, hb]
  simp

/-- A comma and an element take a character. -/
lemma advances_commaThen {element : Reader} (h : Advances element) :
    Advances (commaThen element) := by
  intro cs v rest hread
  simp only [commaThen, bind, Option.bind_eq_some_iff, dropChar?_eq_some] at hread
  obtain ⟨behindComma, ⟨c, -, hcomma⟩, helement⟩ := hread
  obtain ⟨a, -, ha⟩ := h _ _ _ helement
  obtain ⟨pad, hpad⟩ := exists_taken_dropWhile isBlank cs
  obtain ⟨more, hmore⟩ := exists_taken_dropWhile isBlank behindComma
  refine ⟨pad ++ c :: (more ++ a), by simp, ?_⟩
  rw [hpad, hcomma, hmore, ha]
  simp

/-- Behind a row of elements is the end of what was ahead. -/
lemma elementsWith_suffix {element : Reader} (h : Advances element) (cs : List Char) :
    (elementsWith element cs).2 <:+ cs := by
  unfold elementsWith
  cases helement : element cs with
  | none => exact List.suffix_rfl
  | some result =>
    obtain ⟨node, rest⟩ := result
    obtain ⟨a, -, rfl⟩ := h _ _ _ helement
    exact (many_suffix (advances_commaThen h) rest).trans (List.suffix_append a rest)

/-- What stands between marks takes a character. -/
lemma advances_delimitedWith (opening closing : Char) {element : Reader} (h : Advances element) :
    Advances (delimitedWith opening closing element) := by
  intro cs nodes rest hread
  simp only [delimitedWith, bind, Option.bind_eq_some_iff, dropChar?_eq_some, Option.some.injEq,
    Prod.mk.injEq] at hread
  obtain ⟨inside, ⟨c, -, rfl⟩, _, ⟨d, -, hclose⟩, -, rfl⟩ := hread
  obtain ⟨pad, hpad⟩ := exists_taken_dropWhile isBlank inside
  obtain ⟨elements, helements⟩ := elementsWith_suffix h (inside.dropWhile isBlank)
  obtain ⟨more, hmore⟩ :=
    exists_taken_dropWhile isBlank (elementsWith element (inside.dropWhile isBlank)).2
  refine ⟨c :: (pad ++ elements ++ more ++ [d]), by simp, ?_⟩
  conv_lhs => rw [hpad, ← helements, hmore, hclose]
  simp

/-- An object with parts takes a character. -/
lemma advances_compositeWith (h : Advances inner) : Advances (compositeWith inner) :=
  (advances_keyValueWith h).or (advances_rangeAt.or
    (((advances_delimitedWith _ _ (advances_keyValueWith h)).map Node.hash).or
      ((advances_delimitedWith _ _ h).map Node.list)))

/-- Any object takes a character. -/
lemma advances_objectWith (h : Advances inner) : Advances (objectWith inner) :=
  (advances_compositeWith h).or cuts_simpleAt.advances

end

/-- An object takes a character. -/
theorem advances_objectAt : Advances objectAt := by
  intro cs v rest hread
  rw [objectAt] at hread
  refine advances_objectWith (fun more w left hmore => ?_) cs v rest hread
  split at hmore
  · exact advances_objectAt more w left hmore
  · cases hmore
termination_by cs => cs.length

/-! ## Objects inside are read as objects -/

/-- A row of elements is read the same by readers that agree on all that is not longer. -/
lemma elementsWith_congr {cs : List Char} {element other : Reader} (ha : Advances other)
    (h : ∀ rest : List Char, rest.length ≤ cs.length → element rest = other rest) :
    elementsWith element cs = elementsWith other cs := by
  unfold elementsWith
  rw [h cs (Nat.le_refl _)]
  cases helement : other cs with
  | none => rfl
  | some result =>
    obtain ⟨node, rest⟩ := result
    have hlt := ha.length_lt helement
    have hmany : many (commaThen element) rest = many (commaThen other) rest :=
      many_congr fun more hle => commaThen_congr fun left hlt => h left (by omega)
    simp only [hmany]

/-- What stands between marks is read the same by readers that agree on shorter texts. -/
lemma delimitedWith_congr {opening closing : Char} {cs : List Char} {element other : Reader}
    (ha : Advances other) (h : AgreeBelow cs element other) :
    delimitedWith opening closing element cs = delimitedWith opening closing other cs := by
  unfold delimitedWith
  cases hopen : dropChar? (· == opening) cs with
  | none => rfl
  | some inside =>
    have hlt := length_dropChar? hopen
    have hblank := length_dropWhile_le isBlank inside
    have helements : elementsWith element (inside.dropWhile isBlank) =
        elementsWith other (inside.dropWhile isBlank) :=
      elementsWith_congr ha fun rest hle => h rest (by omega)
    simp only [bind, Option.bind_some, helements]

/-- Only the objects inside an object matter to how it is read, and these are shorter. -/
lemma objectWith_congr {cs : List Char} {inner other : Reader} (ha : Advances other)
    (h : AgreeBelow cs inner other) : objectWith inner cs = objectWith other cs := by
  have hpair : AgreeBelow cs (keyValueWith inner) (keyValueWith other) :=
    fun rest hlt => keyValueWith_congr (h.mono hlt.le)
  unfold objectWith compositeWith hashWith listWith
  rw [keyValueWith_congr h, delimitedWith_congr (advances_keyValueWith ha) hpair,
    delimitedWith_congr ha h]

/-- Objects inside an object are read as objects. -/
theorem objectAt_eq (cs : List Char) : objectAt cs = objectWith objectAt cs := by
  rw [objectAt]
  exact objectWith_congr advances_objectAt fun rest hlt => if_pos hlt

end Packrat.Program
