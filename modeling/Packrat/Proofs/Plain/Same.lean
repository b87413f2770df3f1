import Mathlib.Data.List.Perm.Subperm
import Mathlib.Tactic.Lemma
import Packrat.Plain.Basic
set_option autoImplicit false
set_option relaxedAutoImplicit false

/-!
# When plain data is the same

Records are the same if they have as many entries and the same data by each key, in whatever order
the entries are written; lists are the same if their items are, one by one. A record looks the same
by every key as any record that is the same, if none of its keys is there twice.

## Main definitions

* `Packrat.Plain.same` — whether plain data is the same.
* `Packrat.Plain.Distinct` — no record in the data has a key twice.

## Main results

* `Packrat.Plain.lookup_bind_of_same` — records that are the same cannot be told apart by their
  keys.
* `Packrat.Plain.same_of_perm` — the order of entries does not matter.
* `Packrat.Plain.Distinct.same_self` — data is the same as itself.
-/

namespace Packrat.Plain

/-- Whether plain data is the same. -/
def same : Plain → Plain → Bool
  | .null, .null => true
  | .text s, .text t => s == t
  | .list ps, .list qs => sameItems ps qs
  | .record es, .record fs => es.length == fs.length && found es fs
  | _, _ => false
where
  /-- Whether items are the same, one by one. -/
  sameItems : List Plain → List Plain → Bool
    | [], [] => true
    | p :: ps, q :: qs => p.same q && sameItems ps qs
    | _, _ => false
  /-- Whether entries are found by their keys among others. -/
  found : List (String × Plain) → List (String × Plain) → Bool
    | [], _ => true
    | (key, p) :: es, fs => (fs.lookup key).any p.same && found es fs

/-! ## Data by its parts -/

/-- What is directly in a list or a record. -/
def parts : Plain → List Plain
  | .list ps => ps
  | .record es => es.map Prod.snd
  | .null | .text _ => []

/-- The keys of a record. -/
def keys : Plain → List String
  | .record es => es.map Prod.fst
  | .null | .text _ | .list _ => []

/-- No record in the data has a key twice. -/
inductive Distinct : Plain → Prop
  | mk {p : Plain} (here : p.keys.Nodup) (below : ∀ q ∈ p.parts, Distinct q) : Distinct p

/-! ## Looking up -/

section

variable {es fs : List (String × Plain)} {key : String} {p : Plain}

/-- What is looked up is among the entries. -/
lemma mem_of_lookup (h : es.lookup key = some p) : (key, p) ∈ es := by
  obtain ⟨before, after, rfl, -⟩ := List.lookup_eq_some_iff.1 h
  simp

/-- Nothing is looked up where no entry has the key. -/
lemma lookup_eq_none : es.lookup key = none ↔ key ∉ es.map Prod.fst := by
  rw [List.lookup_eq_none_iff, List.mem_map]
  constructor
  · rintro h ⟨e, he, rfl⟩
    simpa using h e he
  · intro h e he
    exact bne_iff_ne.2 fun heq => h ⟨e, he, heq.symm⟩

/-- Among entries with distinct keys, each is looked up under its key. -/
lemma lookup_of_mem (hdistinct : (es.map Prod.fst).Nodup) (h : (key, p) ∈ es) :
    es.lookup key = some p := by
  obtain ⟨before, after, rfl⟩ := List.append_of_mem h
  refine List.lookup_eq_some_iff.2 ⟨before, after, rfl, fun e he => bne_iff_ne.2 ?_⟩
  rintro rfl
  rw [List.map_append, List.nodup_append] at hdistinct
  exact hdistinct.2.2 _ (List.mem_map_of_mem he) _ (by simp) rfl

/-- All entries are found among others if each key has data there that compares as the same. -/
lemma found_iff :
    same.found es fs = true ↔ ∀ e ∈ es, ∃ q, fs.lookup e.1 = some q ∧ e.2.same q = true := by
  induction es with
  | nil => simp [same.found]
  | cons e es ih =>
    rw [same.found, Bool.and_eq_true, ih, List.forall_mem_cons, Option.any_eq_true]

/-- Lists compare as the same item by item. -/
lemma sameItems_iff {ps qs : List Plain} :
    same.sameItems ps qs = true ↔ List.Forall₂ (fun p q => p.same q = true) ps qs := by
  induction ps generalizing qs with
  | nil => cases qs <;> simp [same.sameItems]
  | cons p ps ih => cases qs <;> simp [same.sameItems, ih]

/-- Records compare as the same if they have as many entries, and each key has data in the other one
that compares as the same. -/
lemma same_record_iff : (record es).same (record fs) = true ↔
    es.length = fs.length ∧ ∀ e ∈ es, ∃ q, fs.lookup e.1 = some q ∧ e.2.same q = true := by
  rw [same, Bool.and_eq_true, beq_iff_eq, found_iff]

/-- Records that are the same have the same keys.

**Proof sketch.** All keys of the first record are found in the second. As they are distinct and the
second record has no more entries, there are no further keys in it. -/
lemma keys_perm_of_same (hdistinct : (es.map Prod.fst).Nodup)
    (h : (record es).same (record fs) = true) :
    (es.map Prod.fst).Perm (fs.map Prod.fst) := by
  obtain ⟨hlength, hfound⟩ := same_record_iff.1 h
  have hsubset : es.map Prod.fst ⊆ fs.map Prod.fst := by
    intro key hkey
    obtain ⟨e, he, rfl⟩ := List.mem_map.1 hkey
    obtain ⟨q, hq, -⟩ := hfound e he
    exact List.mem_map.2 ⟨_, mem_of_lookup hq, rfl⟩
  exact (List.subperm_of_subset hdistinct hsubset).perm_of_length_le (by simp [hlength])

/-- Whatever is the same for data that is the same can be looked up in either record. -/
theorem lookup_bind_of_same {β : Type} {f : Plain → Option β} (hdistinct : (es.map Prod.fst).Nodup)
    (hf : ∀ p ∈ (record es).parts, ∀ q, p.same q = true → f q = f p)
    (h : (record es).same (record fs) = true)
    (key : String) : (fs.lookup key).bind f = (es.lookup key).bind f := by
  cases hp : es.lookup key with
  | none =>
    have hnone : fs.lookup key = none := by
      rw [lookup_eq_none, ← (keys_perm_of_same hdistinct h).mem_iff, ← lookup_eq_none, hp]
    rw [hnone]
  | some p =>
    have hmem := mem_of_lookup hp
    obtain ⟨q, hq, hsame⟩ := (same_record_iff.1 h).2 _ hmem
    rw [hq]
    exact hf p (List.mem_map_of_mem hmem) q hsame

/-- The order of entries does not matter. -/
theorem same_of_perm (hdistinct : (es.map Prod.fst).Nodup) (hself : ∀ e ∈ es, e.2.same e.2 = true)
    (h : es.Perm fs) : (record es).same (record fs) = true := by
  refine same_record_iff.2 ⟨h.length_eq, fun e he => ⟨e.2, ?_, hself e he⟩⟩
  exact lookup_of_mem ((h.map Prod.fst).nodup_iff.1 hdistinct) (h.mem_iff.1 he)

example :
    (record [("key", .text "a"), ("value", .null)]).same
    (record [("value", .null), ("key", .text "a")]) = true := by
  decide

end

/-- There is no record in a null. -/
lemma distinct_null : null.Distinct := ⟨List.nodup_nil, nofun⟩

/-- There is no record in a text. -/
lemma distinct_text (s : String) : (text s).Distinct := ⟨List.nodup_nil, nofun⟩

/-- A list has no key twice if none of its items has. -/
lemma distinct_list {ps : List Plain} (h : ∀ p ∈ ps, p.Distinct) : (list ps).Distinct :=
  ⟨List.nodup_nil, h⟩

/-- A record has no key twice if its own keys are distinct and none of its values has a key twice.
-/
lemma distinct_record {es : List (String × Plain)} (hkeys : (es.map Prod.fst).Nodup)
    (h : ∀ e ∈ es, e.2.Distinct) :
    (record es).Distinct :=
  ⟨hkeys, List.forall_mem_map.2 h⟩

/-- Data is the same as itself. -/
theorem Distinct.same_self {p : Plain} (h : p.Distinct) : p.same p = true := by
  induction h with
  | @mk p here below ih =>
    cases p with
    | null => simp [same]
    | text s => simp [same]
    | list ps => exact sameItems_iff.2 (List.forall₂_same.2 ih)
    | record es => exact same_of_perm here (List.forall_mem_map.1 ih) (.refl es)

end Packrat.Plain
