import QueryTypes.Shape.Branches

namespace QueryTypes

structure Compiler where
  schema : Schema
  /-- The fragments of the document, each name once. -/
  fragments : List Fragment
  mergeSpreads : Bool

/-- What has been collected so far: for the type at hand, under other type conditions, and the
    names of the types of all fields without subfields, each once. -/
structure Collection where
  target : Collected := {}
  branches : List Branch := []
  leaves : List String := []
  deriving Repr, Inhabited

structure Shape where
  fields : List ResponseField
  spreads : List String
  cases : List (TypeCase ResponseField)
  leaves : List String
  deriving Repr, Inhabited

/-- How the selections of a fragment are collected: on which type, and whether under a directive
    that may leave them out. -/
abbrev Expansion := TypeDefinition → Bool → Collection → Except Error Collection

def isConditional (directives : List Directive) : Bool :=
  directives.any fun directive => directive.name == "skip" || directive.name == "include"

namespace Collection

def addField (c : Collection) (field : ResponseField) : Collection :=
  { c with target := { c.target with fields := field.mergeInto c.target.fields } }

def addSpread (c : Collection) (name : String) : Collection :=
  { c with target := { c.target with spreads := insertNew c.target.spreads name } }

end Collection

namespace Compiler

def fragment? (c : Compiler) (name : String) : Option Fragment :=
  c.fragments.find? (·.name == name)

def type (c : Compiler) (name : String) : Except Error TypeDefinition :=
  match c.schema.type? name with
  | some type => .ok type
  | none => .error (.compiler (.unknownType name))

def composite (c : Compiler) (name : String) : Except Error TypeDefinition := do
  let type ← c.type name
  if type.isComposite then return type else throw (.compiler (.notComposite name))

def fieldType (c : Compiler) (parent : TypeDefinition) (name : String) :
    Except Error (FieldDefinition × TypeDefinition) := do
  match c.schema.field? parent name with
  | none => throw (.compiler (.unknownField name parent.name))
  | some definition => return (definition, ← c.type definition.type.baseName)

def inlineType (c : Compiler) (parent : TypeDefinition) (head : InlineHead) :
    Except Error TypeDefinition :=
  match head.condition with
  | some name => c.composite name
  | none => .ok parent

/-- Collects on the type at hand if the condition always holds there, and else into the branch of
    the condition. While a branch is filled its entry is empty, and then it is replaced. -/
def branchOut (c : Compiler) (parent condition : TypeDefinition)
    (collect : TypeDefinition → Collection → Except Error Collection) (s : Collection) :
    Except Error Collection :=
  if c.schema.isSupertype condition parent then collect parent s
  else do
    let branch := ((s.branches.find? (·.condition == condition.name)).map Branch.content).getD {}
    let opened := putBy Branch.condition s.branches ⟨condition.name, {}⟩
    let inner ← collect condition ⟨branch, opened, s.leaves⟩
    return ⟨s.target, putBy Branch.condition inner.branches ⟨condition.name, inner.target⟩,
      inner.leaves⟩

def finish (c : Compiler) (parent : TypeDefinition) (s : Collection) : Shape :=
  { fields := s.target.fields
    spreads := s.target.spreads
    cases := Branch.exclusive c.schema parent.name s.target s.branches
    leaves := s.leaves }

def makeField (head : FieldHead) (definition : FieldDefinition) (conditional : Bool)
    (shape : Shape) : ResponseField :=
  { responseName := head.responseName
    fieldName := head.name
    type := definition.type
    description := definition.description
    isConditional := conditional
    fields := shape.fields
    spreads := shape.spreads
    cases := shape.cases }

mutual
def collect (c : Compiler) (expand : String → Expansion) (parent : TypeDefinition)
    (conditional : Bool) : Selection → Collection → Except Error Collection
  | .field head _ selections, s => do
    let (definition, type) ← c.fieldType parent head.name
    let shape ← if type.isComposite then do
        let inner ← collectAll c expand type false selections {}
        pure (c.finish type inner)
      else pure ⟨[], [], [], [type.name]⟩
    let field := makeField head definition (conditional || isConditional head.directives) shape
    return { s.addField field with leaves := insertAll s.leaves shape.leaves }
  | .inline head _ selections, s => do
    let condition ← c.inlineType parent head
    let conditional := conditional || isConditional head.directives
    c.branchOut parent condition
      (fun type s => collectAll c expand type conditional selections s) s
  | .spread spread, s =>
    let s := s.addSpread spread.name
    if c.mergeSpreads then
      expand spread.name parent (conditional || isConditional spread.directives) s
    else .ok s

def collectAll (c : Compiler) (expand : String → Expansion) (parent : TypeDefinition)
    (conditional : Bool) : List Selection → Collection → Except Error Collection
  | [], s => .ok s
  | selection :: rest, s => do
    let s ← collect c expand parent conditional selection s
    collectAll c expand parent conditional rest s
end

def closed (c : Compiler) (stack : List String) : Nat :=
  c.fragments.countP fun fragment => fragment.name ∉ stack

theorem closed_cons_lt (c : Compiler) (stack : List String) (name : String) (fragment : Fragment)
    (found : c.fragment? name = some fragment) (fresh : name ∉ stack) :
    c.closed (name :: stack) < c.closed stack := by
  unfold fragment? at found
  unfold closed
  generalize c.fragments = fragments at found
  induction fragments with
  | nil => cases found
  | cons head rest ih =>
    have le : rest.countP (fun f => decide (f.name ∉ name :: stack)) ≤
        rest.countP (fun f => decide (f.name ∉ stack)) := by
      apply List.countP_mono_left
      intro f _
      simp only [List.mem_cons, not_or, decide_eq_true_eq]
      exact And.right
    by_cases same : head.name = name
    · subst same
      simp only [List.countP_cons, List.mem_cons, true_or, not_true_eq_false, decide_false, fresh,
        not_false_eq_true, decide_true, Bool.false_eq_true, ↓reduceIte, Nat.add_zero] at le ⊢
      exact Nat.lt_succ_of_le le
    · have other : (head.name == name) = false := by simpa using same
      simp only [List.find?_cons, other] at found
      have lt := ih found
      simp only [List.countP_cons, List.mem_cons, same, false_or] at lt ⊢
      exact Nat.add_lt_add_right lt _

/-- Expands a fragment inside those on the stack. A fragment that is being expanded must not be
    spread again. -/
def expand (c : Compiler) (stack : List String) (name : String) : Expansion :=
  fun parent conditional s =>
    if _fresh : name ∈ stack then .error (.compiler (.recursiveFragment name))
    else
      match _found : c.fragment? name with
      | none => .error (.compiler (.unknownFragment name))
      | some fragment => do
        let condition ← c.composite fragment.condition
        c.branchOut parent condition
          (fun type s => c.collectAll (fun inner => c.expand (name :: stack) inner) type conditional
            fragment.selectionSet.items s) s
termination_by c.closed stack
decreasing_by exact c.closed_cons_lt stack name fragment _found _fresh

def collectFrom (c : Compiler) (stack : List String) (parent : TypeDefinition)
    (selections : List Selection) : Except Error Collection :=
  c.collectAll (c.expand stack) parent false selections {}

def shape (c : Compiler) (stack : List String) (parent : TypeDefinition)
    (selections : List Selection) : Except Error Shape := do
  return c.finish parent (← c.collectFrom stack parent selections)

end Compiler

end QueryTypes
