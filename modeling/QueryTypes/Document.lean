import QueryTypes.Position
import QueryTypes.TypeRef
import QueryTypes.Value

namespace QueryTypes

structure Argument where
  name : String
  value : Value
  deriving DecidableEq, Repr, Inhabited

structure Directive where
  position : Position
  name : String
  arguments : List Argument
  deriving DecidableEq, Repr, Inhabited

structure FieldHead where
  position : Position
  /-- The alias, if one is written. -/
  label : Option String
  name : String
  arguments : List Argument
  directives : List Directive
  deriving DecidableEq, Repr, Inhabited

def FieldHead.responseName (head : FieldHead) : String := head.label.getD head.name

structure InlineHead where
  position : Position
  condition : Option String
  directives : List Directive
  deriving DecidableEq, Repr, Inhabited

structure FragmentSpread where
  position : Position
  name : String
  directives : List Directive
  deriving DecidableEq, Repr, Inhabited

/-- One item of a selection set. A field without subfields has an empty list of them. -/
inductive Selection where
  | field (head : FieldHead) (span : Span) (selections : List Selection)
  | inline (head : InlineHead) (span : Span) (selections : List Selection)
  | spread (spread : FragmentSpread)
  deriving Repr, Inhabited

namespace Selection

mutual
def decEq : (a b : Selection) → Decidable (a = b)
  | .field a s as, .field b t bs =>
    match decEqList as bs with
    | isTrue h =>
      if hab : a = b ∧ s = t then isTrue (by rw [hab.1, hab.2, h])
      else isFalse (by simp; intro ha hs; exact absurd ⟨ha, hs⟩ hab)
    | isFalse h => isFalse (by simp [h])
  | .inline a s as, .inline b t bs =>
    match decEqList as bs with
    | isTrue h =>
      if hab : a = b ∧ s = t then isTrue (by rw [hab.1, hab.2, h])
      else isFalse (by simp; intro ha hs; exact absurd ⟨ha, hs⟩ hab)
    | isFalse h => isFalse (by simp [h])
  | .spread a, .spread b => if h : a = b then isTrue (by rw [h]) else isFalse (by simpa using h)
  | .field .., .inline .. | .field .., .spread _ => isFalse nofun
  | .inline .., .field .. | .inline .., .spread _ => isFalse nofun
  | .spread _, .field .. | .spread _, .inline .. => isFalse nofun

def decEqList : (a b : List Selection) → Decidable (a = b)
  | [], [] => isTrue rfl
  | a :: as, b :: bs =>
    match decEq a b, decEqList as bs with
    | isTrue h, isTrue hs => isTrue (by rw [h, hs])
    | isFalse h, _ => isFalse (by simp [h])
    | _, isFalse hs => isFalse (by simp [hs])
  | [], _ :: _ | _ :: _, [] => isFalse nofun
end

instance : DecidableEq Selection := decEq

end Selection

structure SelectionSet where
  span : Span
  items : List Selection
  deriving DecidableEq, Repr, Inhabited

inductive OperationKind where
  | query
  | mutation
  | subscription
  deriving DecidableEq, Repr, Inhabited

namespace OperationKind

def keyword : OperationKind → String
  | query => "query"
  | mutation => "mutation"
  | subscription => "subscription"

def suffix : OperationKind → String
  | query => "Query"
  | mutation => "Mutation"
  | subscription => "Subscription"

end OperationKind

structure VariableDefinition where
  position : Position
  name : String
  type : TypeRef
  initial : Option Value
  deriving DecidableEq, Repr, Inhabited

structure OperationHead where
  kind : OperationKind
  name : Option String
  parameters : List VariableDefinition
  directives : List Directive
  deriving DecidableEq, Repr, Inhabited

/-- An operation. A bare selection set is a query without a head. -/
structure Operation where
  position : Position
  head : Option OperationHead
  selectionSet : SelectionSet
  deriving DecidableEq, Repr, Inhabited

namespace Operation

def kind (operation : Operation) : OperationKind :=
  (operation.head.map OperationHead.kind).getD .query

def name? (operation : Operation) : Option String := operation.head.bind OperationHead.name

def parameters (operation : Operation) : List VariableDefinition :=
  (operation.head.map OperationHead.parameters).getD []

end Operation

structure Fragment where
  position : Position
  name : String
  condition : String
  directives : List Directive
  selectionSet : SelectionSet
  deriving DecidableEq, Repr, Inhabited

inductive Definition where
  | operation (operation : Operation)
  | fragment (fragment : Fragment)
  deriving DecidableEq, Repr, Inhabited

def Definition.position : Definition → Position
  | .operation o => o.position
  | .fragment f => f.position

structure Document where
  definitions : List Definition
  deriving DecidableEq, Repr, Inhabited

namespace Document

def concat (documents : List Document) : Document := ⟨documents.flatMap Document.definitions⟩

def operations (document : Document) : List Operation :=
  document.definitions.filterMap fun
    | .operation operation => some operation
    | .fragment _ => none

def fragments (document : Document) : List Fragment :=
  document.definitions.filterMap fun
    | .operation _ => none
    | .fragment fragment => some fragment

end Document

end QueryTypes
