import Packrat.Program.Tagged
import Packrat.Proofs.Plain.Same
import Packrat.Proofs.Program.Outline
set_option autoImplicit false
set_option relaxedAutoImplicit false

/-!
# Reading the tagged form

A tree is read off its tagged form by the keys of each record: the key that tells the kind of a node
is not a key of any other kind. The order in which the entries of a record are written does not
matter, so trees whose tagged forms are the same are the same.

## Main definitions

* `Packrat.Program.ofTagged` — the tree whose tagged form is given.

## Main results

* `Packrat.Program.ofTagged_of_same` — data that is the same is read as the same tree.
* `Packrat.Program.Node.ofTagged_tagged` — trees are read back.
* `Packrat.Program.tagged_lossless` — trees are read off all data that is the same as their tagged
  forms.
-/

namespace Packrat.Program

/-! ## Reading -/

/-- What a text says. -/
def textOf : Plain → Option String
  | .text s => some s
  | .null | .list _ | .record _ => none

/-- The statements of a program. -/
def statementsOf : Node → Option (List Node)
  | .program statements => some statements
  | _ => none

/-- The tree of a record whose texts, and whose values as trees, are given by their keys. -/
def ofEntries (text : String → Option String) (node : String → Option Node) : Option Node :=
  [(text "comment").map .comment,
    (text "nil").map fun _ => .nil,
    (text "true").map fun _ => .bool true,
    (text "false").map fun _ => .bool false,
    (text "integer").map (.integer · (text "sign")),
    (text "decimal").map (.decimal · (text "sign")),
    (text "character").map .character,
    (text "string").map .string,
    (text "regex").map .regex,
    (node "key").bind fun key => (node "value").map (.keyValue key),
    (node "start").bind fun start => (node "end").map (.range start · (text "exclusivity")),
    (node "hash").bind fun pairs => (statementsOf pairs).map .hash,
    (node "list").bind fun items => (statementsOf items).map .list].findSome? id

/-- The tree whose tagged form is given. A bare list is read as a program, also where it holds what
is in a hash or a list. -/
def ofTagged : Plain → Option Node
  | .list ps => (allOfTagged ps).map .program
  | .record es =>
    ofEntries (fun key => (es.lookup key).bind textOf) fun key =>
      ((eachOfTagged es).lookup key).bind id
  | .null | .text _ => none
where
  /-- The trees of several items. -/
  allOfTagged : List Plain → Option (List Node)
    | [] => some []
    | p :: ps => (ofTagged p).bind fun n => (allOfTagged ps).map (n :: ·)
  /-- The values of entries as trees. -/
  eachOfTagged : List (String × Plain) → List (String × Option Node)
    | [] => []
    | (key, p) :: es => (key, ofTagged p) :: eachOfTagged es

/-- The value of a key is read as a tree just as any data is. -/
lemma lookup_eachOfTagged (es : List (String × Plain)) (key : String) :
    (ofTagged.eachOfTagged es).lookup key = (es.lookup key).map ofTagged := by
  induction es with
  | nil => rfl
  | cons e es ih =>
    rw [ofTagged.eachOfTagged, List.lookup_cons, List.lookup_cons, ih]
    split <;> rfl

/-- A record is read by looking up its texts and its trees. -/
lemma ofTagged_record (es : List (String × Plain)) :
    ofTagged (.record es) =
      ofEntries (fun key => (es.lookup key).bind textOf) fun key =>
        (es.lookup key).bind ofTagged := by
  rw [ofTagged]
  congr 1
  funext key
  rw [lookup_eachOfTagged]
  cases es.lookup key <;> rfl

/-! ## The order of entries -/

/-- Data that compares as the same has the same text, if any. -/
lemma textOf_of_same {p q : Plain} (h : p.same q = true) : textOf q = textOf p := by
  cases p <;> cases q <;> simp_all [Plain.same, textOf]

/-- Lists that compare as the same are read as the same trees. -/
lemma allOfTagged_of_same {ps qs : List Plain}
    (hps : ∀ p ∈ ps, ∀ q, p.same q = true → ofTagged q = ofTagged p)
    (h : List.Forall₂ (fun p q => p.same q = true) ps qs) :
    ofTagged.allOfTagged qs = ofTagged.allOfTagged ps := by
  induction h with
  | nil => rfl
  | cons hsame _ ih =>
    obtain ⟨hp, hps⟩ := List.forall_mem_cons.1 hps
    rw [ofTagged.allOfTagged, ofTagged.allOfTagged, hp _ hsame, ih hps]

/-- Data that is the same is read as the same tree.

**Proof sketch.** Induction on the data. A record is read by looking its values up, and by each key
both records have the same. -/
theorem ofTagged_of_same {p : Plain} (hp : p.Distinct) :
    ∀ q, p.same q = true → ofTagged q = ofTagged p := by
  induction hp with
  | @mk p here below ih =>
    intro q h
    cases p with
    | null =>
      cases q with
      | null => rfl
      | _ => cases h
    | text s =>
      cases q with
      | text t => rfl
      | _ => cases h
    | list ps =>
      cases q with
      | list qs =>
        exact congrArg (Option.map Node.program) (allOfTagged_of_same ih (Plain.sameItems_iff.1 h))
      | _ => cases h
    | record es =>
      cases q with
      | record fs =>
        have htext := Plain.lookup_bind_of_same here (fun p _ q => textOf_of_same) h
        have hnode := Plain.lookup_bind_of_same here ih h
        rw [ofTagged_record, ofTagged_record, funext htext, funext hnode]
      | _ => cases h

/-! ## Reading back -/

namespace Node

/-- The tagged forms of several trees are those of each of them, in order. -/
lemma taggedAll_eq (nodes : List Node) : tagged.taggedAll nodes = nodes.map tagged := by
  induction nodes with
  | nil => rfl
  | cons n nodes ih => rw [tagged.taggedAll, ih, List.map_cons]

/-- Trees that are read back from their tagged forms are so in a row. -/
lemma allOfTagged_taggedAll {nodes : List Node} (h : ∀ n ∈ nodes, ofTagged n.tagged = some n) :
    ofTagged.allOfTagged (tagged.taggedAll nodes) = some nodes := by
  induction nodes with
  | nil => rfl
  | cons n nodes ih =>
    obtain ⟨hn, hnodes⟩ := List.forall_mem_cons.1 h
    rw [tagged.taggedAll, ofTagged.allOfTagged, hn, ih hnodes]
    rfl

/-- Trees are read back. -/
theorem ofTagged_tagged (n : Node) : ofTagged n.tagged = some n := by
  induction n using induction_parts with
  | step n ih =>
    cases n with
    | bool value => cases value <;> rfl
    | integer digits sign | decimal digits sign => cases sign <;> rfl
    | keyValue key value =>
      obtain ⟨hkey, hvalue⟩ : ofTagged key.tagged = some key ∧
          ofTagged value.tagged = some value := by
        simpa [parts] using ih
      simp [tagged, ofTagged_record, ofEntries, List.lookup_cons, hkey, hvalue]
    | range start stop exclusivity =>
      obtain ⟨hstart, hstop⟩ : ofTagged start.tagged = some start ∧
          ofTagged stop.tagged = some stop := by
        simpa [parts] using ih
      cases exclusivity <;>
        simp [tagged, ofTagged_record, ofEntries, List.lookup_cons, textOf, hstart, hstop]
    | hash nodes | list nodes | program nodes =>
      have hnodes : ofTagged.allOfTagged (tagged.taggedAll nodes) = some nodes :=
        allOfTagged_taggedAll (by simpa [parts] using ih)
      simp [tagged, ofTagged_record, ofTagged, ofEntries, List.lookup_cons, statementsOf, hnodes]
    | _ => rfl

/-- No record in a tagged form has a key twice. -/
lemma distinct_tagged (n : Node) : n.tagged.Distinct := by
  induction n using induction_parts with
  | step n ih =>
    cases n with
    | bool value =>
      cases value <;> exact Plain.distinct_record (by simp) (by simp [Plain.distinct_text])
    | integer digits sign | decimal digits sign =>
      cases sign <;>
        exact Plain.distinct_record (by simp [signEntry]) (by simp [signEntry, Plain.distinct_text])
    | keyValue key value => exact Plain.distinct_record (by simp) (by simpa [parts] using ih)
    | range start stop exclusivity =>
      obtain ⟨hstart, hstop⟩ : start.tagged.Distinct ∧ stop.tagged.Distinct := by
        simpa [parts] using ih
      cases exclusivity <;>
        exact Plain.distinct_record (by simp)
          (by simp [hstart, hstop, Plain.distinct_null, Plain.distinct_text])
    | hash nodes | list nodes =>
      have hnodes : (Plain.list (tagged.taggedAll nodes)).Distinct :=
        Plain.distinct_list (by simpa [taggedAll_eq, parts] using ih)
      exact Plain.distinct_record (by simp) (by simp [hnodes])
    | program nodes => exact Plain.distinct_list (by simpa [taggedAll_eq, parts] using ih)
    | _ => exact Plain.distinct_record (by simp) (by simp [Plain.distinct_text])

end Node

/-- The tagged form loses nothing.

* A tree is read off all data that is the same as its tagged form.
* The tagged forms of trees are the same just if the trees are.

**Proof sketch.** Data that is the same is read as the same tree, and the tagged form of a tree as
the tree itself. -/
theorem tagged_lossless :
    (∀ (n : Node) (p : Plain), n.tagged.same p = true → ofTagged p = some n) ∧
      ∀ n m : Node, n.tagged.same m.tagged = true ↔ n = m := by
  have hread : ∀ (n : Node) (p : Plain), n.tagged.same p = true → ofTagged p = some n :=
    fun n p h =>
    (ofTagged_of_same n.distinct_tagged p h).trans n.ofTagged_tagged
  refine ⟨hread, fun n m => ⟨fun h => ?_, ?_⟩⟩
  · exact Option.some.inj ((hread n m.tagged h).symm.trans m.ofTagged_tagged)
  · rintro rfl
    exact n.distinct_tagged.same_self

/-- A range is read off its record with the entries in another order, and is not the same as one
without its third point. -/
theorem tagged_lossless_range :
    ofTagged (.record [("end", .record [("character", .text "z")]), ("exclusivity", .text "."),
        ("start", .record [("integer", .text "1_0"), ("sign", .text "-")])]) =
        some (.range (.integer "1_0" (some "-")) (.character "z") (some ".")) ∧
      (Node.range .nil .nil (some ".")).tagged.same (Node.range .nil .nil none).tagged = false := by
  refine ⟨tagged_lossless.1 (.range (.integer "1_0" (some "-")) (.character "z") (some ".")) _
    (by decide), ?_⟩
  rw [Bool.eq_false_iff, ne_eq, tagged_lossless.2]
  decide

end Packrat.Program
