import Mathlib.Data.List.Nodup
import Mathlib.Tactic.Lemma
import Packrat.Value.Merge
set_option autoImplicit false
set_option relaxedAutoImplicit false

/-!
# Merging in groups

Values are merged one after the other. If some of them that stand next to each other are merged
first, and what they merge to is merged with the rest, then the result is the same: fields keep
their order and the later ones of a name win, and lists are spliced sooner or later. Whether a list
was spliced may be forgotten on the way, but then there are fields, or several values, and it does
not matter any more.

## Main definitions

* `Packrat.Gathered.join` — what is gathered in two goes.
* `Packrat.MergesAs` — values that merge to the same whatever stands around them.

## Main results

* `Packrat.mergeValues_group` — merging some of the values first.
* `Packrat.exists_mixture_of_group` — values that cannot be merged cannot be merged with others,
  either.
-/

namespace Packrat

variable {α : Type}

/-! ## Fields -/

section Fields

variable {fields more : List (String × Value α)} {name other : String}

/-- Behind a field that is put, there are its name and those that were there. -/
lemma mem_names_putField {value : Value α} :
    other ∈ (putField name value fields).map Prod.fst ↔
    other = name ∨ other ∈ fields.map Prod.fst := by
  induction fields with
  | nil => simp [putField]
  | cons field fields ih =>
    obtain ⟨n, v⟩ := field
    by_cases h : n = name
    · subst h
      simp [putField]
    · simp only [putField, h, if_false, List.map_cons, List.mem_cons, ih]
      exact or_left_comm

/-- A field that is put does not bring a name in twice. -/
lemma nodup_names_putField (value : Value α) (h : (fields.map Prod.fst).Nodup) :
    ((putField name value fields).map Prod.fst).Nodup := by
  induction fields with
  | nil => simp [putField]
  | cons field fields ih =>
    obtain ⟨n, v⟩ := field
    obtain ⟨hnot, hrest⟩ := List.nodup_cons.1 h
    by_cases heq : n = name
    · simpa only [putField, heq, if_true, List.map_cons] using heq ▸ h
    · simp only [putField, heq, if_false, List.map_cons]
      refine List.nodup_cons.2 ⟨fun hmem => ?_, ih hrest⟩
      exact (mem_names_putField.1 hmem).elim heq hnot

/-- Of two values for a field, the second one counts. -/
lemma putField_putField (value new : Value α) :
    putField name new (putField name value fields) = putField name new fields := by
  induction fields with
  | nil => simp [putField]
  | cons field fields ih =>
    obtain ⟨n, v⟩ := field
    by_cases h : n = name <;> simp [putField, h, ih]

/-- A field that is there already can be given its value before another field or behind it. -/
lemma putField_comm (value new : Value α) (hmem : name ∈ fields.map Prod.fst) (hne : name ≠ other) :
    putField name value (putField other new fields) =
      putField other new (putField name value fields) := by
  induction fields with
  | nil => cases hmem
  | cons field fields ih =>
    obtain ⟨n, v⟩ := field
    by_cases h : n = name
    · subst h
      simp [putField, hne]
    · have hrest : name ∈ fields.map Prod.fst := (List.mem_cons.1 hmem).resolve_left (Ne.symm h)
      by_cases h' : n = other
      · subst h'
        simp [putField, h]
      · simp [putField, h, h', ih hrest]

/-- Fields are put one after the other. -/
lemma putFields_cons (value : Value α) :
    putFields fields ((name, value) :: more) = putFields (putField name value fields) more := rfl

/-- Behind fields that are put, there are their names and those that were there. -/
lemma mem_names_putFields :
    other ∈ (putFields fields more).map Prod.fst ↔
      other ∈ fields.map Prod.fst ∨ other ∈ more.map Prod.fst := by
  induction more generalizing fields with
  | nil => simp [putFields]
  | cons field more ih =>
    obtain ⟨n, v⟩ := field
    rw [putFields_cons, ih, mem_names_putField, List.map_cons, List.mem_cons]
    tauto

/-- Fields that are put do not bring a name in twice. -/
lemma nodup_names_putFields (more : List (String × Value α)) (h : (fields.map Prod.fst).Nodup) :
    ((putFields fields more).map Prod.fst).Nodup := by
  induction more generalizing fields with
  | nil => exact h
  | cons field more ih => exact ih (nodup_names_putField field.2 h)

/-- Fields do not get fewer by putting others. -/
lemma putFields_ne_nil (h : fields ≠ [] ∨ more ≠ []) : putFields fields more ≠ [] := by
  intro hnil
  have hnames : ∀ other, other ∉ (putFields fields more).map Prod.fst := by simp [hnil]
  simp only [mem_names_putFields, not_or] at hnames
  rcases h with h | h
  · obtain ⟨field, hmem⟩ := List.exists_mem_of_ne_nil _ h
    exact (hnames field.1).1 (List.mem_map_of_mem hmem)
  · obtain ⟨field, hmem⟩ := List.exists_mem_of_ne_nil _ h
    exact (hnames field.1).2 (List.mem_map_of_mem hmem)

/-- A field that is there already can be given its value before others are put behind it. -/
lemma putField_putFields (value : Value α) (hmem : name ∈ fields.map Prod.fst)
    (hnot : name ∉ more.map Prod.fst) :
    putField name value (putFields fields more) = putFields (putField name value fields) more := by
  induction more generalizing fields with
  | nil => rfl
  | cons field more ih =>
    obtain ⟨n, v⟩ := field
    rw [List.map_cons, List.mem_cons, not_or] at hnot
    rw [putFields_cons, putFields_cons, ih (mem_names_putField.2 (.inr hmem)) hnot.2,
      putField_comm value v hmem hnot.1]

/-- A field of the second group may as well be given its value in the end. -/
lemma putFields_putField (value : Value α) (h : (more.map Prod.fst).Nodup) :
    putFields fields (putField name value more) = putField name value (putFields fields more) := by
  induction more generalizing fields with
  | nil => rfl
  | cons field more ih =>
    obtain ⟨n, v⟩ := field
    obtain ⟨hnot, hrest⟩ := List.nodup_cons.1 h
    by_cases heq : n = name
    · subst heq
      simp only [putField, if_true]
      rw [putFields_cons, putFields_cons,
        putField_putFields value (mem_names_putField.2 (.inl rfl)) hnot, putField_putField]
    · simp only [putField, heq, if_false]
      rw [putFields_cons, putFields_cons, ih hrest]

/-- Groups of fields can be put together in any grouping. -/
lemma putFields_putFields (others : List (String × Value α)) (h : (more.map Prod.fst).Nodup) :
    putFields fields (putFields more others) = putFields (putFields fields more) others := by
  induction others generalizing more with
  | nil => rfl
  | cons field others ih =>
    obtain ⟨n, v⟩ := field
    rw [putFields_cons, putFields_cons, ih (nodup_names_putField v h), putFields_putField v h]

/-- A field that is not there yet is put behind the others. -/
lemma putField_of_notMem (value : Value α) (hnot : name ∉ fields.map Prod.fst) :
    putField name value fields = fields ++ [(name, value)] := by
  induction fields with
  | nil => rfl
  | cons field fields ih =>
    rw [List.map_cons, List.mem_cons, not_or] at hnot
    simp [putField, Ne.symm hnot.1, ih hnot.2]

/-- Fields with other names are put behind those that are there. -/
lemma putFields_of_nodup (h : ((fields ++ more).map Prod.fst).Nodup) :
    putFields fields more = fields ++ more := by
  induction more generalizing fields with
  | nil => exact (List.append_nil fields).symm
  | cons field more ih =>
    obtain ⟨n, v⟩ := field
    have hnot : n ∉ fields.map Prod.fst := by
      simp only [List.map_append, List.map_cons, List.nodup_append, List.mem_cons] at h
      exact fun hmem => h.2.2 n hmem n (.inl rfl) rfl
    rw [putFields_cons, putField_of_notMem v hnot, ih (by simpa using h), List.append_assoc]
    rfl

end Fields

/-! ## Values that are gathered -/

namespace Gathered

variable {g h : Gathered α}

/-- What is gathered in two goes. -/
def join (g h : Gathered α) : Gathered α :=
  ⟨putFields g.fields h.fields, g.loose ++ h.loose, g.spliced || h.spliced⟩

/-- What is gathered in two goes may be gathered in the first alone. -/
lemma join_empty (g : Gathered α) : g.join {} = g := by
  simp [join, putFields]

/-- What holds of all that is gathered: every field is there once, and as long as no list was
spliced, the loose values are such as are added one by one. -/
structure Tidy (g : Gathered α) : Prop where
  nodup : (g.fields.map Prod.fst).Nodup
  add_loose : g.spliced = false → ∀ value ∈ g.loose, ∀ other : Gathered α,
    other.add (some value) = { other with loose := other.loose ++ [value] }

/-- One more value leaves what is gathered tidy. -/
lemma Tidy.add (hg : g.Tidy) (value : Option (Value α)) : (g.add value).Tidy := by
  have hloose : ∀ {v : Value α}, (∀ other : Gathered α,
      other.add (some v) = { other with loose := other.loose ++ [v] }) → (g.add (some v)).Tidy := by
    intro v hv
    rw [hv g]
    refine ⟨hg.nodup, fun hspliced value hmem => ?_⟩
    rcases List.mem_append.1 hmem with hmem | hmem
    · exact hg.add_loose hspliced value hmem
    · obtain rfl := List.mem_singleton.1 hmem
      exact hv
  match value with
  | none => exact hg
  | some (.fields fs) => exact ⟨nodup_names_putFields fs hg.nodup, hg.add_loose⟩
  | some (.items vs) => exact ⟨hg.nodup, nofun⟩
  | some (.text s) => exact hloose fun _ => rfl
  | some (.object a) => exact hloose fun _ => rfl

/-- More values leave what is gathered tidy. -/
lemma Tidy.foldl (hg : g.Tidy) (values : List (Option (Value α))) :
    (values.foldl Gathered.add g).Tidy := by
  induction values generalizing g with
  | nil => exact hg
  | cons value values ih => exact ih (hg.add value)

/-- Nothing is tidy. -/
lemma tidy_empty : ({} : Gathered α).Tidy := ⟨List.nodup_nil, fun _ _ hmem => nomatch hmem⟩

/-- A value may be added to the second of two goes. -/
lemma join_add (hh : h.Tidy) (value : Option (Value α)) :
    (g.join h).add value = g.join (h.add value) := by
  match value with
  | none => rfl
  | some (.fields fs) => simp [join, add, putFields_putFields fs hh.nodup]
  | some (.items vs) => simp [join, add]
  | some (.text s) | some (.object a) => simp [join, add]

/-- Values that are added to what is there can be gathered by themselves first. -/
lemma foldl_add_eq_join (g : Gathered α) (values : List (Option (Value α))) :
    values.foldl add g = g.join (values.foldl add {}) := by
  have hjoin : ∀ {h : Gathered α}, h.Tidy →
      values.foldl add (g.join h) = g.join (values.foldl add h) := by
    intro h hh
    induction values generalizing h with
    | nil => rfl
    | cons value values ih => simp only [List.foldl_cons, join_add hh, ih (hh.add value)]
  rw [← hjoin tidy_empty, join_empty]

/-! ## What was spliced -/

/-- The same has been gathered, except perhaps whether a list was spliced, and this does not
matter. -/
structure Similar (g h : Gathered α) : Prop where
  fields : g.fields = h.fields
  loose : g.loose = h.loose
  spliced : g.spliced = h.spliced ∨ g.fields ≠ [] ∨ 2 ≤ g.loose.length

/-- One more value leaves similar gatherings similar. -/
lemma Similar.add (hs : g.Similar h) (value : Option (Value α)) :
    (g.add value).Similar (h.add value) := by
  obtain ⟨hfields, hloose, hspliced⟩ := hs
  have hlonger : ∀ more : List (Value α),
      g.spliced = h.spliced ∨ g.fields ≠ [] ∨ 2 ≤ (g.loose ++ more).length := fun more =>
    hspliced.imp_right (.imp_right fun hle => by rw [List.length_append]; omega)
  match value with
  | none => exact ⟨hfields, hloose, hspliced⟩
  | some (.fields fs) =>
    exact ⟨congrArg (putFields · fs) hfields, hloose,
      hspliced.imp_right (.imp_left fun hne => putFields_ne_nil (.inl hne))⟩
  | some (.items vs) => exact ⟨hfields, congrArg (· ++ vs) hloose, .inl rfl⟩
  | some (.text s) | some (.object a) => exact ⟨hfields, congrArg (· ++ [_]) hloose, hlonger _⟩

/-- More values leave similar gatherings similar. -/
lemma Similar.foldl (hs : g.Similar h) (values : List (Option (Value α))) :
    (values.foldl Gathered.add g).Similar (values.foldl Gathered.add h) := by
  induction values generalizing g h with
  | nil => exact hs
  | cons value values ih => exact ih (hs.add value)

/-- Similar gatherings merge to the same. -/
lemma Similar.merged (hs : g.Similar h) : g.merged = h.merged := by
  obtain ⟨hfields, hloose, hspliced⟩ := hs
  obtain ⟨fields, loose, spliced⟩ := g
  obtain ⟨_, _, spliced'⟩ := h
  obtain rfl : fields = _ := hfields
  obtain rfl : loose = _ := hloose
  rcases hspliced with hspliced | hne | hlen
  · obtain rfl : spliced = spliced' := hspliced
    rfl
  · simp [Gathered.merged, hne]
  · match loose, hlen with
    | _ :: _ :: _, _ => rfl

/-- Adding what has been merged is as good as adding all that it was merged of. -/
lemma similar_add_merged (hh : h.Tidy) {value : Option (Value α)} (hm : h.merged = .ok value)
    (g : Gathered α) : (g.add value).Similar (g.join h) := by
  obtain ⟨fields, loose, spliced⟩ := h
  cases fields with
  | cons field fields =>
    cases loose with
    | cons _ _ => cases hm
    | nil =>
      obtain rfl : some (.fields (field :: fields)) = value := by
        simpa [Gathered.merged] using hm
      exact ⟨rfl, (List.append_nil _).symm,
        .inr (.inl (putFields_ne_nil (.inr (List.cons_ne_nil _ _))))⟩
  | nil =>
    match loose, hm with
    | [], hm =>
      cases spliced with
      | false =>
        cases hm
        exact ⟨rfl, (List.append_nil _).symm, .inl (Bool.or_false _).symm⟩
      | true =>
        cases hm
        exact ⟨rfl, rfl, .inl (Bool.or_true _).symm⟩
    | [v], hm =>
      cases spliced with
      | false =>
        obtain rfl : some v = value := by simpa [Gathered.merged] using hm
        rw [hh.add_loose rfl v List.mem_cons_self]
        exact ⟨rfl, rfl, .inl (Bool.or_false _).symm⟩
      | true =>
        cases hm
        exact ⟨rfl, rfl, .inl (Bool.or_true _).symm⟩
    | v :: w :: vs, hm =>
      cases hm
      refine ⟨rfl, rfl, .inr (.inr ?_)⟩
      simp only [Gathered.add, List.length_append, List.length_cons]
      omega

/-- What has been gathered cannot be merged just if there are both fields and other values. -/
lemma exists_merged_eq_error_iff :
    (∃ mixture, g.merged = .error mixture) ↔ g.fields ≠ [] ∧ g.loose ≠ [] := by
  obtain ⟨fields, loose, spliced⟩ := g
  cases fields with
  | nil => rcases loose with _ | ⟨_, _ | _⟩ <;> simp [Gathered.merged]
  | cons field fields => cases loose <;> simp [Gathered.merged]

end Gathered

/-! ## Merging -/

section Merging

variable {values others : List (Option (Value α))} {value : Option (Value α)}

/-- The values merge to the same as the others, whatever stands around them. -/
def MergesAs (values others : List (Option (Value α))) : Prop :=
  ∀ before behind, mergeValues (before ++ values ++ behind) =
    mergeValues (before ++ others ++ behind)

/-- If some values can be merged, it makes no difference to merge them before the values around
them. -/
theorem mergeValues_group (h : mergeValues values = .ok value) : MergesAs [value] values := by
  intro before behind
  simp only [mergeValues, List.foldl_append, List.foldl_cons, List.foldl_nil]
  rw [Gathered.foldl_add_eq_join _ values]
  have hsimilar := Gathered.similar_add_merged (Gathered.tidy_empty.foldl values) h
    (before.foldl Gathered.add {})
  exact (hsimilar.foldl behind).merged

/-- If some values cannot be merged, they cannot be merged with values around them, either. -/
theorem exists_mixture_of_group {mixture : Mixture α} (h : mergeValues values = .error mixture)
    (before behind : List (Option (Value α))) :
    ∃ mixture, mergeValues (before ++ values ++ behind) = .error mixture := by
  obtain ⟨hfields, hloose⟩ := Gathered.exists_merged_eq_error_iff.1 ⟨mixture, h⟩
  refine Gathered.exists_merged_eq_error_iff.2 ?_
  simp only [List.foldl_append]
  rw [Gathered.foldl_add_eq_join _ behind, Gathered.foldl_add_eq_join _ values]
  exact ⟨putFields_ne_nil (.inl (putFields_ne_nil (.inr hfields))), by simp [Gathered.join, hloose]⟩

namespace MergesAs

/-- Values merge as themselves. -/
lemma refl (values : List (Option (Value α))) : MergesAs values values := fun _ _ => rfl

/-- Values that merge as others do so on their own. -/
lemma mergeValues_eq (h : MergesAs values others) : mergeValues values = mergeValues others := by
  simpa using h [] []

/-- Two rows of values that merge as others do so one behind the other. -/
lemma append {more rest : List (Option (Value α))} (h : MergesAs values others)
    (h' : MergesAs more rest) : MergesAs (values ++ more) (others ++ rest) := by
  intro before behind
  have hfirst := h before (more ++ behind)
  have hsecond := h' (before ++ others) behind
  simp only [List.append_assoc] at hfirst hsecond ⊢
  rw [hfirst, hsecond]

end MergesAs

/-- A value that is merged by itself stays what it is, unless it is an empty group of fields. -/
lemma mergeValues_singleton
    (h : ∀ fields, value = some (.fields fields) → (fields.map Prod.fst).Nodup) :
    mergeValues [value] = .ok value ∨
      value = some (.fields []) ∧ mergeValues [value] = .ok none := by
  match value with
  | none | some (.text _) | some (.object _) => exact .inl rfl
  | some (.items vs) => rcases vs with _ | ⟨_, _ | _⟩ <;> exact .inl rfl
  | some (.fields []) => exact .inr ⟨rfl, rfl⟩
  | some (.fields (field :: fields)) =>
    have hsame : putFields [] (field :: fields) = field :: fields := putFields_of_nodup (h _ rfl)
    left
    simp [mergeValues, Gathered.add, Gathered.merged, hsame]

end Merging

end Packrat
