import QueryTypes.Discriminator
import QueryTypes.Document.Read

namespace QueryTypes

inductive FieldTree where
  | node (name : String) (children : List FieldTree)
  deriving Repr, Inhabited

namespace FieldTree

mutual
def toText : FieldTree → String
  | node name [] => name
  | node name (first :: rest) =>
    name ++ "\x7b" ++ ",".intercalate (toText first :: toTexts rest) ++ "\x7d"

def toTexts : List FieldTree → List String
  | [] => []
  | tree :: rest => toText tree :: toTexts rest
end

def typename : FieldTree := node typenameField []

end FieldTree

namespace Schema

def needsNoArguments (field : FieldDefinition) : Bool := !field.arguments.any InputValue.isRequired

def expandable (type : TypeDefinition) : List (String × String) :=
  match type.body with
  | .input fields => fields.map fun field => (field.name, field.type.baseName)
  | _ => (type.fields.filter needsNoArguments).map fun field => (field.name, field.type.baseName)

def offPath (schema : Schema) (path : List String) : Nat :=
  schema.types.countP fun type => type.name ∉ path

theorem offPath_cons_lt (schema : Schema) (path : List String) (name : String)
    (type : TypeDefinition) (found : schema.type? name = some type) (fresh : type.name ∉ path) :
    schema.offPath (type.name :: path) < schema.offPath path := by
  have member := List.mem_of_find?_eq_some found
  unfold offPath
  generalize schema.types = types at member
  induction types with
  | nil => cases member
  | cons head rest ih =>
    have le : rest.countP (fun t => decide (t.name ∉ type.name :: path)) ≤
        rest.countP (fun t => decide (t.name ∉ path)) := by
      apply List.countP_mono_left
      intro t _
      simp only [List.mem_cons, not_or, decide_eq_true_eq]
      exact And.right
    by_cases same : head.name = type.name
    · simp only [List.countP_cons, List.mem_cons, same, true_or, not_true_eq_false, decide_false,
        fresh, not_false_eq_true, decide_true, Bool.false_eq_true, ↓reduceIte,
        Nat.add_zero] at le ⊢
      exact Nat.lt_succ_of_le le
    · have inRest : type ∈ rest := by
        rcases List.mem_cons.mp member with rfl | inRest
        · exact absurd rfl same
        · exact inRest
      have lt := ih inRest
      simp only [List.countP_cons, List.mem_cons, same, false_or] at lt ⊢
      exact Nat.add_lt_add_right lt _

/-- All that can be selected below a type without arguments. A type that is already on the path
    selects only its name, and so do unions. -/
def expand (schema : Schema) (path : List String) (name : String) : List FieldTree :=
  match _found : schema.type? name with
  | none => []
  | some type =>
    match type.body with
    | .scalar | .enum _ => []
    | .union _ => [.typename]
    | .object .. | .interface _ | .input _ =>
      if _fresh : type.name ∈ path then [.typename]
      else
        let trees := (expandable type).map fun (field, base) =>
          FieldTree.node field (schema.expand (type.name :: path) base)
        if trees.isEmpty then [.typename] else trees
termination_by schema.offPath path
decreasing_by all_goals exact schema.offPath_cons_lt path name type _found _fresh

def operationText (schema : Schema) (kind : OperationKind) (name : String)
    (field : FieldDefinition) : Except Error String := do
  let parenthesized (texts : List String) :=
    if texts.isEmpty then "" else "(" ++ ",".intercalate texts ++ ")"
  let parameters ← field.arguments.mapM fun argument => do
    return "$" ++ argument.name ++ ":" ++ (← argument.type.name false)
  let arguments := field.arguments.map fun argument => argument.name ++ ":$" ++ argument.name
  let trees := schema.expand [] field.type.baseName
  let subfields := if trees.isEmpty then ""
    else "\x7b" ++ ",".intercalate (FieldTree.toTexts trees) ++ "\x7d"
  return kind.keyword ++ " " ++ name ++ parenthesized parameters ++ "\x7b" ++ field.name ++
    parenthesized arguments ++ subfields ++ "\x7d"

/-- The operations of all root fields in order, each with its name: that of the field, or with the
    kind behind it if the name is taken. -/
def rootOperations (schema : Schema) : List (OperationKind × String × FieldDefinition) :=
  let fields := [OperationKind.query, .mutation, .subscription].flatMap fun kind =>
    match schema.root kind with
    | .ok root => root.fields.map fun field => (kind, field)
    | .error _ => []
  name [] fields
where
  name (used : List String) : List (OperationKind × FieldDefinition) →
      List (OperationKind × String × FieldDefinition)
    | [] => []
    | (kind, field) :: rest =>
      if field.name ∈ used then
        let own := field.name ++ kind.suffix
        (kind, own, field) :: name (own :: used) rest
      else (kind, field.name, field) :: name (field.name :: used) rest

def defaultDocument (schema : Schema) : Except Error Document := do
  let documents ← schema.rootOperations.mapM fun (kind, name, field) => do
    Document.read none (← schema.operationText kind name field)
  (Document.concat documents).withDiscriminators schema

end Schema

end QueryTypes
