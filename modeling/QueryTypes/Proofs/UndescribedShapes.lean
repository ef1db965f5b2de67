import QueryTypes.Compiled
import QueryTypes.Proofs.Crossings
import QueryTypes.Proofs.MappedFields
import QueryTypes.Proofs.Undescribed

namespace QueryTypes

namespace ResponseField

mutual
def undescribed : ResponseField → ResponseField
  | ⟨responseName, fieldName, type, _, isConditional, fields, spreads, cases⟩ =>
    ⟨responseName, fieldName, type, none, isConditional, undescribedAll fields, spreads, undescribedCases cases⟩
termination_by structural field => field

def undescribedAll : List ResponseField → List ResponseField
  | [] => []
  | field :: rest => undescribed field :: undescribedAll rest
termination_by structural fields => fields

def undescribedCase : TypeCase ResponseField → TypeCase ResponseField
  | ⟨condition, possibleTypes, fields, spreads⟩ => ⟨condition, possibleTypes, undescribedAll fields, spreads⟩
termination_by structural typeCase => typeCase

def undescribedCases : List (TypeCase ResponseField) → List (TypeCase ResponseField)
  | [] => []
  | typeCase :: rest => undescribedCase typeCase :: undescribedCases rest
termination_by structural cases => cases
end

theorem undescribed_eq (field : ResponseField) :
    field.undescribed =
      { field with
        description := none, fields := undescribedAll field.fields, cases := undescribedCases field.cases } := by
  cases field
  rw [undescribed]

theorem undescribedCase_eq (typeCase : TypeCase ResponseField) :
    undescribedCase typeCase = { typeCase with fields := undescribedAll typeCase.fields } := by
  cases typeCase
  rw [undescribedCase]

theorem undescribedAll_eq (fields : List ResponseField) : undescribedAll fields = fields.map undescribed := by
  induction fields with
  | nil => rw [undescribedAll]; rfl
  | cons field rest ih => rw [undescribedAll, ih]; rfl

theorem undescribedCases_eq (cases : List (TypeCase ResponseField)) :
    undescribedCases cases = cases.map undescribedCase := by
  induction cases with
  | nil => rw [undescribedCases]; rfl
  | cons typeCase rest ih => rw [undescribedCases, ih]; rfl

@[simp] theorem responseName_undescribed (field : ResponseField) :
    field.undescribed.responseName = field.responseName := by
  rw [undescribed_eq]

@[simp] theorem condition_undescribedCase (typeCase : TypeCase ResponseField) :
    (undescribedCase typeCase).condition = typeCase.condition := by
  rw [undescribedCase_eq]

theorem undescribedAll_mergeAll_of {into fields : List ResponseField}
    (absorbed : ∀ y ∈ fields, ∀ x : ResponseField, (x.absorb y).undescribed = x.undescribed.absorb y.undescribed) :
    undescribedAll (mergeAll into fields) = mergeAll (undescribedAll into) (undescribedAll fields) := by
  simp only [undescribedAll_eq, mergeAll_eq]
  exact map_mergeBy_map responseName_undescribed absorbed

theorem undescribed_absorb (existing field : ResponseField) :
    (existing.absorb field).undescribed = existing.undescribed.absorb field.undescribed := by
  induction field using induction_below generalizing existing with
  | step field below belowCases =>
    have fields : undescribedAll (mergeAll existing.fields field.fields) =
        mergeAll (undescribedAll existing.fields) (undescribedAll field.fields) :=
      undescribedAll_mergeAll_of fun y member x => below y member x
    have cases : undescribedCases (mergeCases existing.cases field.cases) =
        mergeCases (undescribedCases existing.cases) (undescribedCases field.cases) := by
      simp only [undescribedCases_eq, mergeCases_eq]
      apply map_mergeBy_map condition_undescribedCase
      intro typeCase listed other
      have inCase : undescribedAll (mergeAll other.fields typeCase.fields) =
          mergeAll (undescribedAll other.fields) (undescribedAll typeCase.fields) :=
        undescribedAll_mergeAll_of fun y member x => belowCases typeCase listed y member x
      simp only [undescribedCase_eq, TypeCase.absorb, inCase]
    simp only [undescribed_eq, absorb, fields, cases]

def undescribing : FieldsMap :=
  ⟨undescribedAll, rfl, fun _ _ => undescribedAll_mergeAll_of fun y _ x => undescribed_absorb x y⟩

end ResponseField

open ResponseField

def Collection.undescribed (s : Collection) : Collection := s.mapFields undescribing

def Shape.undescribed (shape : Shape) : Shape :=
  { shape with fields := undescribedAll shape.fields, cases := undescribedCases shape.cases }

theorem Collection.undescribed_record (s : Collection) (field : ResponseField) (leaves : List String) :
    (s.record field leaves).undescribed = s.undescribed.record field.undescribed leaves := by
  have single : undescribing.apply [field] = [field.undescribed] := rfl
  rw [undescribed, mapFields_record, single, mergeAll, mergeAll]
  rfl

theorem Branch.exclusive_undescribed (schema : Schema) (parent : String) (base : Collected) (branches : List Branch) :
    exclusive schema.undescribed parent base branches = exclusive schema parent base branches := by
  have resolved (scope : List String) : resolve schema.undescribed scope = resolve schema scope := by
    funext branch
    simp only [resolve, Schema.possibleTypes_undescribed]
  simp only [exclusive, resolved, Schema.possibleTypes_undescribed]

namespace Compiler

variable {c : Compiler} {parent : TypeDefinition}

def undescribed (c : Compiler) : Compiler := { c with schema := c.schema.undescribed }

theorem undescribed_makeField (head : FieldHead) (definition : FieldDefinition) (conditional : Bool) (shape : Shape) :
    (makeField head definition conditional shape).undescribed =
      makeField head definition.undescribed conditional shape.undescribed := by
  rw [undescribed_eq]
  rfl

theorem undescribed_finish (c : Compiler) (parent : TypeDefinition) (s : Collection) :
    (c.finish parent s).undescribed = c.finish parent s.undescribed := by
  have cases : undescribedCases (Branch.exclusive c.schema parent.name s.target s.branches) =
      Branch.exclusive c.schema parent.name (s.target.mapFields undescribing)
        (s.branches.map (Branch.mapFields undescribing)) := by
    have each : undescribedCase = TypeCase.mapFields undescribing := funext undescribedCase_eq
    rw [undescribedCases_eq, each, Branch.exclusive_mapFields]
  simp only [Shape.undescribed, finish, cases]
  rfl

theorem finish_undescribed (c : Compiler) (parent : TypeDefinition) (s : Collection) :
    c.undescribed.finish parent.undescribed s = c.finish parent s := by
  simp only [finish, undescribed, TypeDefinition.name_undescribed, Branch.exclusive_undescribed]

theorem type_undescribed (c : Compiler) (name : String) :
    c.undescribed.type name = TypeDefinition.undescribed <$> c.type name := by
  have found := c.schema.type?_undescribed name
  unfold Compiler.type
  rw [show c.undescribed.schema = c.schema.undescribed from rfl, found]
  cases c.schema.type? name <;> rfl

theorem composite_undescribed (c : Compiler) (name : String) :
    c.undescribed.composite name = TypeDefinition.undescribed <$> c.composite name := by
  unfold composite
  rw [type_undescribed]
  cases c.type name with
  | error fault => rfl
  | ok type =>
    change (if type.undescribed.isComposite = true then _ else _) = _ <$> (if type.isComposite = true then _ else _)
    rw [TypeDefinition.isComposite_undescribed]
    cases type.isComposite <;> rfl

theorem inlineType_undescribed (c : Compiler) (parent : TypeDefinition) (head : InlineHead) :
    c.undescribed.inlineType parent.undescribed head = TypeDefinition.undescribed <$> c.inlineType parent head := by
  unfold inlineType
  cases head.condition with
  | none => rfl
  | some name => exact composite_undescribed c name

theorem opens_undescribed (c : Compiler) (parent condition : TypeDefinition) :
    c.undescribed.opens parent.undescribed condition.undescribed = c.opens parent condition := by
  simp only [opens, undescribed, Schema.isSupertype_undescribed]

variable {name : String}

theorem fieldType_undescribed_eq_error {fault : Error} (unknown : c.fieldType parent name = .error fault) :
    c.undescribed.fieldType parent.undescribed name = .error fault := by
  unfold fieldType at unknown ⊢
  cases found : c.schema.field? parent name with
  | none =>
    have absent : c.undescribed.schema.field? parent.undescribed name = none :=
      Schema.field?_undescribed_eq_none found
    rw [found] at unknown
    rw [absent]
    exact unknown
  | some definition =>
    obtain ⟨twin, foundTwin, alike⟩ := Schema.exists_field?_undescribed found
    have looked : c.undescribed.schema.field? parent.undescribed name = some twin := foundTwin
    rw [found] at unknown
    rw [looked]
    dsimp only at unknown ⊢
    rw [FieldDefinition.type_eq_of_undescribed alike, type_undescribed]
    cases typed : c.type definition.type.baseName with
    | error other =>
      rw [typed] at unknown
      exact unknown
    | ok type =>
      rw [typed] at unknown
      cases unknown

theorem exists_fieldType_undescribed {definition : FieldDefinition} {type : TypeDefinition}
    (looked : c.fieldType parent name = .ok (definition, type)) :
    ∃ twin, c.undescribed.fieldType parent.undescribed name = .ok (twin, type.undescribed) ∧
      twin.undescribed = definition.undescribed := by
  unfold fieldType at looked ⊢
  cases found : c.schema.field? parent name with
  | none =>
    rw [found] at looked
    cases looked
  | some own =>
    obtain ⟨twin, foundTwin, alike⟩ := Schema.exists_field?_undescribed found
    have lookedTwin : c.undescribed.schema.field? parent.undescribed name = some twin := foundTwin
    rw [found] at looked
    obtain ⟨_, typed, done⟩ := bind_eq_ok.mp looked
    cases done
    refine ⟨twin, ?_, alike⟩
    rw [lookedTwin]
    dsimp only
    rw [FieldDefinition.type_eq_of_undescribed alike, type_undescribed, typed]
    rfl

theorem observed_branchOut_undescribed {condition : TypeDefinition}
    {collect other : TypeDefinition → Collection → Except Error Collection} {s t : Collection}
    (same : s.undescribed = t.undescribed)
    (inside : ∀ type s t, s.undescribed = t.undescribed →
      observed Collection.undescribed (collect type s) = observed Collection.undescribed (other type.undescribed t)) :
    observed Collection.undescribed (c.branchOut parent condition collect s) =
      observed Collection.undescribed (c.undescribed.branchOut parent.undescribed condition.undescribed other t) := by
  rw [branchOut_eq, branchOut_eq, opens_undescribed, TypeDefinition.name_undescribed]
  cases c.opens parent condition with
  | false => exact inside parent s t same
  | true =>
    have entered : (s.enter condition.name).undescribed = (t.enter condition.name).undescribed := by
      simp only [Collection.undescribed, Collection.mapFields_enter] at same ⊢
      rw [same]
    refine observed_bind (inside condition _ _ entered) fun filled refilled _ _ alike => ?_
    have left : (filled.leave s condition.name).undescribed = (refilled.leave t condition.name).undescribed := by
      simp only [Collection.undescribed, Collection.mapFields_leave] at same alike ⊢
      rw [same, alike]
    exact congrArg some left

/-- Inside the fragments on the stack the same is collected for a schema with descriptions and for the one
    without, apart from these. -/
def CollectsUndescribed (c : Compiler) (stack : List String) (selections : List Selection) : Prop :=
  ∀ parent conditional s t, s.undescribed = t.undescribed →
    observed Collection.undescribed (c.collectAll (c.expand stack) parent conditional selections s) =
      observed Collection.undescribed
        (c.undescribed.collectAll (c.undescribed.expand stack) parent.undescribed conditional selections t)

mutual
theorem observed_collect_undescribed {stack : List String}
    (deeper : ∀ name fragment, c.fragment? name = some fragment → name ∉ stack →
      c.CollectsUndescribed (name :: stack) fragment.selectionSet.items)
    (parent : TypeDefinition) (conditional : Bool) :
    (selection : Selection) → ∀ s t, s.undescribed = t.undescribed →
      observed Collection.undescribed (c.collect (c.expand stack) parent conditional selection s) =
        observed Collection.undescribed
          (c.undescribed.collect (c.undescribed.expand stack) parent.undescribed conditional selection t)
  | .field head span inner, s, t, same => by
    cases looked : c.fieldType parent head.name with
    | error fault =>
      rw [collect, collect, looked, fieldType_undescribed_eq_error looked, error_bind, error_bind]
    | ok found =>
      obtain ⟨definition, type⟩ := found
      obtain ⟨twin, lookedTwin, alike⟩ := exists_fieldType_undescribed looked
      have recorded {field other : ResponseField} {leaves : List String}
          (fields : field.undescribed = other.undescribed) :
          (s.record field leaves).undescribed = (t.record other leaves).undescribed := by
        rw [Collection.undescribed_record, Collection.undescribed_record, same, fields]
      cases below : type.isComposite with
      | false =>
        have simple : type.undescribed.isComposite = false := by
          rw [TypeDefinition.isComposite_undescribed, below]
        rw [collect_leaf looked below, collect_leaf lookedTwin simple]
        apply congrArg some
        apply recorded
        rw [undescribed_makeField, undescribed_makeField, alike]
        rfl
      | true =>
        have composite : type.undescribed.isComposite = true := by
          rw [TypeDefinition.isComposite_undescribed, below]
        rw [collect_composite looked below, collect_composite lookedTwin composite]
        refine observed_bind (collectsUndescribed_of deeper inner type false {} {} rfl) ?_
        intro filled refilled _ _ inside
        have leaves : filled.leaves = refilled.leaves := (congrArg Collection.leaves inside :)
        apply congrArg some
        rw [leaves]
        apply recorded
        rw [undescribed_makeField, undescribed_makeField, alike, finish_undescribed, undescribed_finish,
          undescribed_finish, inside]
  | .inline head span inner, s, t, same => by
    rw [collect, collect, inlineType_undescribed, bind_map_left]
    cases c.inlineType parent head with
    | error fault => rfl
    | ok condition =>
      rw [ok_bind, ok_bind]
      apply observed_branchOut_undescribed same
      intro type s t same
      exact collectsUndescribed_of deeper inner type _ s t same
  | .spread spread, s, t, same => by
    have noted : (s.addSpread spread.name).undescribed = (t.addSpread spread.name).undescribed := by
      simp only [Collection.undescribed, Collection.mapFields_addSpread] at same ⊢
      rw [same]
    have merges : c.undescribed.mergeSpreads = c.mergeSpreads := rfl
    rw [collect, collect, merges]
    split
    · have fragments : c.undescribed.fragment? spread.name = c.fragment? spread.name := rfl
      rw [expand_eq, expand_eq, fragments]
      split
      · rfl
      · rename_i fresh
        cases found : c.fragment? spread.name with
        | none => rfl
        | some fragment =>
          dsimp only
          rw [composite_undescribed, bind_map_left]
          cases c.composite fragment.condition with
          | error fault => rfl
          | ok condition =>
            rw [ok_bind, ok_bind]
            apply observed_branchOut_undescribed noted
            intro type s t same
            exact deeper spread.name fragment found fresh type _ s t same
    · exact congrArg some noted

theorem collectsUndescribed_of {stack : List String}
    (deeper : ∀ name fragment, c.fragment? name = some fragment → name ∉ stack →
      c.CollectsUndescribed (name :: stack) fragment.selectionSet.items) :
    (selections : List Selection) → c.CollectsUndescribed stack selections
  | [] => fun _ _ _ _ same => congrArg some same
  | selection :: rest => by
    intro parent conditional s t same
    rw [collectAll, collectAll]
    refine observed_bind (observed_collect_undescribed deeper parent conditional selection s t same) ?_
    intro middle between _ _ alike
    exact collectsUndescribed_of deeper rest parent conditional middle between alike
end

theorem collectsUndescribed (stack : List String) (selections : List Selection) :
    c.CollectsUndescribed stack selections := by
  induction stack using c.stack_induction generalizing selections with
  | step stack deeper =>
    apply collectsUndescribed_of
    intro name fragment found fresh
    exact deeper name fragment found fresh fragment.selectionSet.items

theorem observed_collectFrom_undescribed (stack : List String) (parent : TypeDefinition) (selections : List Selection) :
    observed Collection.undescribed (c.collectFrom stack parent selections) =
      observed Collection.undescribed (c.undescribed.collectFrom stack parent.undescribed selections) :=
  collectsUndescribed stack selections parent false {} {} rfl

end Compiler

def CompiledOperation.undescribed (operation : CompiledOperation) : CompiledOperation :=
  { operation with fields := undescribedAll operation.fields }

theorem CompiledOperation.name_undescribed (operation : CompiledOperation) :
    operation.undescribed.name = operation.name := rfl

def CompiledFragment.undescribed (fragment : CompiledFragment) : CompiledFragment :=
  { fragment with fields := undescribedAll fragment.fields, cases := undescribedCases fragment.cases }

theorem CompiledFragment.name_undescribed (fragment : CompiledFragment) :
    fragment.undescribed.name = fragment.name := rfl

def Compiled.undescribed (compiled : Compiled) : Compiled :=
  ⟨compiled.schema.undescribed, compiled.operations.map CompiledOperation.undescribed,
    compiled.fragments.map CompiledFragment.undescribed, compiled.typesUsed⟩

namespace Compiler

variable {c : Compiler}

theorem observed_fragment_undescribed (fragment : Fragment) :
    observed (Prod.map CompiledFragment.undescribed id) (c.fragment fragment) =
      observed (Prod.map CompiledFragment.undescribed id) (c.undescribed.fragment fragment) := by
  unfold Compiler.fragment
  rw [composite_undescribed, bind_map_left]
  cases c.composite fragment.condition with
  | error fault => rfl
  | ok parent =>
    rw [ok_bind, ok_bind]
    have shaped : observed Shape.undescribed (c.shape [fragment.name] parent fragment.selectionSet.items) =
        observed Shape.undescribed
          (c.undescribed.shape [fragment.name] parent.undescribed fragment.selectionSet.items) := by
      refine observed_bind (observed_collectFrom_undescribed _ _ _) fun s t _ _ same => ?_
      have finished : (c.finish parent s).undescribed =
          (c.undescribed.finish parent.undescribed t).undescribed := by
        rw [finish_undescribed, undescribed_finish, undescribed_finish, same]
      exact congrArg some finished
    refine observed_bind shaped fun left right _ _ same => ?_
    have fields : undescribedAll left.fields = undescribedAll right.fields := congrArg Shape.fields same
    have cases : undescribedCases left.cases = undescribedCases right.cases := congrArg Shape.cases same
    have spreads : left.spreads = right.spreads := (congrArg Shape.spreads same :)
    have leaves : left.leaves = right.leaves := (congrArg Shape.leaves same :)
    have types : c.undescribed.schema.possibleTypes fragment.condition = c.schema.possibleTypes fragment.condition :=
      c.schema.possibleTypes_undescribed fragment.condition
    apply congrArg some
    simp only [Prod.map, CompiledFragment.undescribed, id_eq, fields, cases, spreads, leaves, types]

theorem joinSources_undescribed (fragments : List CompiledFragment) (source : String) (names : List String) :
    joinSources (fragments.map CompiledFragment.undescribed) source names = joinSources fragments source names := by
  unfold joinSources
  congr 1
  apply mapM_congr
  intro name _
  rw [List.find?_map]
  have named : (fun fragment : CompiledFragment => fragment.name == name) ∘ CompiledFragment.undescribed =
      (·.name == name) := rfl
  rw [named]
  cases fragments.find? (·.name == name) <;> rfl

theorem observed_operation_undescribed {fragments others : List CompiledFragment}
    (alike : fragments.map CompiledFragment.undescribed = others.map CompiledFragment.undescribed)
    (withId : Bool) (operation : Operation) :
    observed (Prod.map CompiledOperation.undescribed id) (c.operation withId fragments operation) =
      observed (Prod.map CompiledOperation.undescribed id) (c.undescribed.operation withId others operation) := by
  have roots : c.undescribed.schema.root operation.kind =
      TypeDefinition.undescribed <$> c.schema.root operation.kind := c.schema.root_undescribed operation.kind
  unfold Compiler.operation
  cases operation.name? with
  | none => rfl
  | some name =>
    dsimp only
    rw [roots, bind_map_left]
    cases c.schema.root operation.kind with
    | error fault => rfl
    | ok root =>
      rw [ok_bind, ok_bind]
      refine observed_bind (observed_collectFrom_undescribed _ _ _) fun s t _ _ same => ?_
      have branches : s.branches.map (Branch.mapFields undescribing) = t.branches.map (Branch.mapFields undescribing) :=
        congrArg Collection.branches same
      cases inLeft : s.branches with
      | cons first rest =>
        cases inRight : t.branches with
        | cons other tail => rfl
        | nil => simp [inLeft, inRight] at branches
      | nil =>
        cases inRight : t.branches with
        | cons other tail => simp [inLeft, inRight] at branches
        | nil =>
          have referenced : c.undescribed.fragmentsReferenced operation.selectionSet.items =
              c.fragmentsReferenced operation.selectionSet.items := rfl
          have joined (source : String) (names : List String) :
              joinSources others source names = joinSources fragments source names := by
            rw [← joinSources_undescribed fragments, alike, joinSources_undescribed]
          have fields : undescribedAll s.target.fields = undescribedAll t.target.fields :=
            congrArg (fun s => s.target.fields) same
          have leaves : s.leaves = t.leaves := (congrArg Collection.leaves same :)
          rw [referenced]
          cases c.fragmentsReferenced operation.selectionSet.items with
          | error fault => rfl
          | ok names =>
            rw [ok_bind, ok_bind, joined]
            cases joinSources fragments (Definition.operation operation).toText names with
            | error fault => rfl
            | ok whole =>
              apply congrArg some
              simp only [Prod.map, CompiledOperation.undescribed, id_eq, fields, leaves,
                TypeDefinition.name_undescribed]

end Compiler

theorem Schema.typesUsed_undescribed (schema : Schema) (names : List String) :
    schema.undescribed.typesUsed names = schema.typesUsed names := by
  have graph : schema.undescribed.inputGraph = schema.inputGraph := by
    simp only [inputGraph, undescribed, List.map_map, Function.comp_def, TypeDefinition.name_undescribed,
      TypeDefinition.inputFields_undescribed]
    rfl
  have declared (name : String) : (schema.undescribed.type? name).any TypeDefinition.isDeclared =
      (schema.type? name).any TypeDefinition.isDeclared := by
    rw [type?_undescribed]
    cases schema.type? name with
    | none => rfl
    | some type => simp
  simp only [typesUsed, graph, declared]

/-- A schema compiles a document if the schema without descriptions does, to the same apart from these. -/
theorem Document.observed_compile_undescribed (document : Document) (schema : Schema) (options : Options) :
    observed Compiled.undescribed (document.compile schema options) =
      observed Compiled.undescribed (document.compile schema.undescribed options) := by
  unfold compile
  have twin : document.compiler schema.undescribed options.mergeSpreads =
      (document.compiler schema options.mergeSpreads).undescribed := rfl
  rw [twin]
  refine observed_bind (observed_mapM fun fragment _ => Compiler.observed_fragment_undescribed fragment) ?_
  intro fragments others _ _ alike
  obtain ⟨ofFragments, belowFragments⟩ := parts_of_map_prodMap alike
  have fragmentsSame := map_distinctBy_congr CompiledFragment.name CompiledFragment.name_undescribed ofFragments
  refine observed_bind
    (observed_mapM fun operation _ => Compiler.observed_operation_undescribed fragmentsSame _ operation) ?_
  intro operations rest _ _ alikeAlso
  obtain ⟨ofOperations, belowOperations⟩ := parts_of_map_prodMap alikeAlso
  have operationsSame := map_distinctBy_congr CompiledOperation.name CompiledOperation.name_undescribed ofOperations
  apply congrArg some
  simp only [id_eq] at belowFragments belowOperations
  simp only [Compiled.undescribed, Schema.undescribed_undescribed, Schema.typesUsed_undescribed, operationsSame,
    fragmentsSame, belowFragments, belowOperations]

end QueryTypes
