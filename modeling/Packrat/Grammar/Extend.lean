import Packrat.Grammar.Basic
set_option autoImplicit false
set_option relaxedAutoImplicit false

/-!
# Building on another grammar

A grammar can be written on top of another one, whose rules it then uses as they are. The objects
of the other grammar become objects of the larger one by an inclusion, and its builders see those
of the larger grammar's objects that come from there.

## Main definitions

* `Packrat.Extended` — the named rules of both grammars.
* `Packrat.Inclusion` — objects of one kind among objects of another.
* `Packrat.Grammar.extend` — a grammar with further rules on top of another one.
-/

namespace Packrat

/-- A named rule of a grammar on top of another one. -/
inductive Extended (ν μ : Type) where
  /-- A rule that the grammar adds. -/
  | own (name : ν)
  /-- A rule of the grammar below. -/
  | base (name : μ)
  deriving DecidableEq

/-- Objects of one kind among objects of another. -/
structure Inclusion (α β : Type) where
  inject : α → β
  restrict : β → Option α
  restrict_inject : ∀ a, restrict (inject a) = some a

variable {ν μ α β : Type}

namespace Value

/-- A value with its objects replaced. -/
def map (f : α → β) : Value α → Value β
  | .text s => .text s
  | .items vs => .items (mapAll vs)
  | .fields fs => .fields (mapFields fs)
  | .object a => .object (f a)
where
  /-- Values with their objects replaced. -/
  mapAll : List (Value α) → List (Value β)
    | [] => []
    | v :: vs => v.map f :: mapAll vs
  /-- Fields with the objects of their values replaced. -/
  mapFields : List (String × Value α) → List (String × Value β)
    | [] => []
    | (name, v) :: fs => (name, v.map f) :: mapFields fs

/-- A value with its objects replaced, if all of them can be. -/
def map? (f : α → Option β) : Value α → Option (Value β)
  | .text s => some (.text s)
  | .items vs => .items <$> mapAll? vs
  | .fields fs => .fields <$> mapFields? fs
  | .object a => .object <$> f a
where
  /-- Values with their objects replaced, if all of them can be. -/
  mapAll? : List (Value α) → Option (List (Value β))
    | [] => some []
    | v :: vs => do
      let v ← v.map? f
      let vs ← mapAll? vs
      some (v :: vs)
  /-- Fields with the objects of their values replaced, if all of them can be. -/
  mapFields? : List (String × Value α) → Option (List (String × Value β))
    | [] => some []
    | (name, v) :: fs => do
      let v ← v.map? f
      let fs ← mapFields? fs
      some ((name, v) :: fs)

end Value

/-- Arguments with their objects replaced, if all of them can be. -/
def Arguments.map? (f : α → Option β) : Arguments α → Option (Arguments β)
  | .named fs => .named <$> Value.map?.mapFields? f fs
  | .single v => .single <$> v.map? f

/-- A builder among other objects than its own. It refuses those that are not its own. -/
def Builder.embed (i : Inclusion α β) (b : Builder α) : Builder β where
  name := b.name
  make args :=
    match args.map? i.restrict with
    | none => .error ⟨b.name⟩
    | some args => (b.make args).map (Option.map (Value.map i.inject))

/-- A rule with its named rules and builders replaced. -/
def Rule.map (f : ν → μ) (h : Builder α → Builder β) : Rule ν α → Rule μ β
  | .literal s => .literal s
  | .charSet set => .charSet set
  | .any => .any
  | .lineStart => .lineStart
  | .sequence rules => .sequence (mapParts rules)
  | .choice rules => .choice (mapParts rules)
  | .repetition rule least most => .repetition (rule.map f h) least most
  | .optional rule => .optional (rule.map f h)
  | .lookahead negative rule => .lookahead negative (rule.map f h)
  | .capture name rule => .capture name (rule.map f h)
  | .build builder rule => .build (h builder) (rule.map f h)
  | .bind name rule => .bind name (rule.map f h)
  | .backref name => .backref name
  | .named x => .named (f x)
where
  /-- Rules with their named rules and builders replaced. -/
  mapParts : List (Rule ν α) → List (Rule μ β)
    | [] => []
    | rule :: rules => rule.map f h :: mapParts rules

/-- A definition with its named rules and builders replaced. -/
def Definition.map (f : ν → μ) (h : Builder α → Builder β) (d : Definition ν α) :
    Definition μ β where
  name := d.name
  errorName := d.errorName
  body := d.body.map (Rule.map f h)

/-- A grammar with further rules on top of another one. The further rules may refer to each other
and to the rules below them. -/
def Grammar.extend (below : Grammar μ α) (i : Inclusion α β) (own : List ν)
    (mem_own : ∀ x, x ∈ own) (define : ν → Definition (Extended ν μ) β) :
    Grammar (Extended ν μ) β where
  rules := own.map .own ++ below.rules.map .base
  mem_rules x := by cases x <;> simp [mem_own, below.mem_rules]
  define
    | .own x => define x
    | .base x => (below.define x).map .base (Builder.embed i)

end Packrat
