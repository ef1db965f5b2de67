import QueryTypes.Proofs.DefaultOperations
import QueryTypes.Proofs.TextLines
import QueryTypes.Proofs.UndescribedItems

namespace QueryTypes

/-- A comment none of whose lines is a line of code. -/
def StaysInside (comment : String) : Prop := strayLines comment = []

instance (comment : String) : Decidable (StaysInside comment) := inferInstanceAs (Decidable (strayLines comment = []))

namespace Text

theorem mem_of_mem_trim {text : List Char} {c : Char} (member : c ∈ trim text) : c ∈ text := by
  unfold trim trimEnd trimStart at member
  have front := (List.dropWhile_suffix isBlank).subset (List.mem_reverse.mp member)
  exact (List.dropWhile_suffix isBlank).subset (List.mem_reverse.mp front)

end Text

theorem staysInside_of_not_mem {comment : String} (single : '\n' ∉ comment.toList) : StaysInside comment := by
  have whole := Text.splitOn_append_of_not_mem single []
  rw [List.append_nil] at whole
  rw [StaysInside, strayLines, whole]
  rfl

theorem staysInside_trim {text : String} (single : '\n' ∉ text.toList) : StaysInside (trim text) := by
  apply staysInside_of_not_mem
  intro member
  rw [trim, String.toList_ofList] at member
  exact single (Text.mem_of_mem_trim member)

theorem allowsLines_staysInside : AllowsLines StaysInside := by
  intro description line listed
  obtain ⟨untrimmed, inLines, rfl⟩ := List.mem_map.mp listed
  obtain ⟨text, _, inText⟩ := List.mem_flatMap.mp inLines
  obtain ⟨characters, inCharacters, rfl⟩ := List.mem_map.mp inText
  apply staysInside_trim
  rw [String.toList_ofList]
  exact Text.not_mem_of_mem_lines inCharacters

namespace Emission

variable {e : Emission} {target : Target} {allowed : String → Prop}

def comments (e : Emission) : Target → Except Error (List String)
  | .json => .ok []
  | .swift => do return (← Swift.items e).flatMap Swift.Item.comments
  | .typeScript => do return (← TypeScript.declarations e).flatMap Declaration.comments
  | .flow => do return (← Flow.declarations e).flatMap Declaration.comments

def Allows (allowed : String → Prop) (e : Emission) : Target → Prop
  | .json | .flow => True
  | .typeScript => TypeScript.AllowsValues allowed e
  | .swift => Swift.AllowsAll allowed e

theorem allows_all (e : Emission) (target : Target) : e.Allows (fun _ => True) target := by
  cases target with
  | json | flow => trivial
  | typeScript => exact fun _ _ _ _ _ _ => trivial
  | swift => exact ⟨fun _ _ _ _ _ _ _ _ => trivial, fun _ _ => ⟨fun _ _ => trivial, fun _ _ _ _ => trivial⟩⟩

structure Written (allowed : String → Prop) (shown : Except Error (List String)) (text plain : String) : Prop where
  clean : ∀ comments, shown = .ok comments → ∀ comment ∈ comments, allowed comment
  code : ∃ comments, shown = .ok comments ∧ Extends (strayCount comments) (codeLines text) (codeLines plain)

theorem alike_written {α : Type} {strip : α → α} {shown : α → List String} {declared plain : Except Error (List α)}
    (alike : Alike (StripsAll allowed strip shown) declared plain) {write : List α → String}
    (lines : ∀ xs, Extends (strayCount (xs.flatMap shown)) (codeLines (write xs)) (codeLines (write (xs.map strip)))) :
    Alike (Written allowed (do return (← declared).flatMap shown)) (do return write (← declared))
      (do return write (← plain)) := by
  cases alike with
  | error fault => exact .error fault
  | @ok xs ys same =>
    refine .ok ⟨?_, xs.flatMap shown, rfl, ?_⟩
    · rintro comments ⟨⟩
      exact same.clean
    · rw [same.stripped]
      exact lines xs

theorem alike_source (lines : AllowsLines allowed) (isText : target ≠ .json) (allows : e.Allows allowed target) :
    Alike (Written allowed (e.comments target)) (e.source target) (e.undescribed.source target) := by
  cases target with
  | json => exact absurd rfl isText
  | flow => exact alike_written (Flow.alike_declarations lines e) (Declaration.extends_source Flow.dialect (by decide))
  | typeScript =>
    exact alike_written (TypeScript.alike_declarations lines allows)
      (Declaration.extends_source (TypeScript.dialect e.options.preferInterfaces)
        (by decide : "/* tslint:disable */" ≠ ""))
  | swift =>
    have begun : (Writer.print {} generatedHeader).newlineIfNeeded.output ≠ "" := by decide
    exact alike_written (Swift.alike_items allows) fun items => Swift.extends_items items begun

end Emission

namespace Schema

/-- The descriptions that a target writes as one comment stay inside it. -/
def CommentsFit (schema : Schema) : Target → Prop
  | .json | .flow => True
  | .typeScript => ∀ type ∈ schema.types, ∀ value ∈ type.values,
    ∀ description ∈ value.description, StaysInside (trim description)
  | .swift => ∀ type ∈ schema.types, Swift.AllowsEnum StaysInside type ∧
    ∀ field ∈ type.fields, ∀ description ∈ field.description, StaysInside (trim description)

theorem fits_undescribed (schema : Schema) (target : Target) : schema.undescribed.CommentsFit target := by
  cases target with
  | json | flow => trivial
  | typeScript =>
    intro type listed value member description described
    obtain ⟨own, _, rfl⟩ := List.mem_map.mp listed
    rw [own.values_undescribed] at member
    obtain ⟨other, _, rfl⟩ := List.mem_map.mp member
    cases described
  | swift =>
    intro type listed
    obtain ⟨own, _, rfl⟩ := List.mem_map.mp listed
    refine ⟨⟨?_, ?_⟩, ?_⟩
    · intro description described
      cases described
    · intro value member description described
      rw [own.values_undescribed] at member
      obtain ⟨other, _, rfl⟩ := List.mem_map.mp member
      cases described
    · intro field member description described
      rw [own.fields_undescribed] at member
      obtain ⟨other, _, rfl⟩ := List.mem_map.mp member
      cases described

variable {schema : Schema}

/-- The fields on the schema itself have descriptions of one line. -/
theorem staysInside_of_field? {parent : TypeDefinition} {name : String} {field : FieldDefinition}
    (fits : ∀ field ∈ parent.fields, ∀ description ∈ field.description, StaysInside (trim description))
    (found : schema.field? parent name = some field) :
    ∀ description ∈ field.description, StaysInside (trim description) := by
  unfold field? at found
  split at found
  · cases found
    rintro description ⟨⟩
    exact staysInside_trim (by decide)
  · split at found
    · cases found
      rintro description ⟨⟩
      exact staysInside_trim (by decide)
    · split at found
      · cases found
        rintro description ⟨⟩
        exact staysInside_trim (by decide)
      · exact fits field (List.mem_of_find?_eq_some found)

end Schema

theorem Document.staysInside_of_compile {schema : Schema} (fits : schema.CommentsFit .swift) {document : Document}
    {options : Options} {compiled : Compiled} (done : document.compile schema options = .ok compiled) :
    ∀ operation ∈ compiled.operations, ∀ field ∈ operation.fields,
      field.Everywhere (Swift.AllowsField StaysInside) := by
  refine everywhere_of_field? done (fun _ _ _ own _ => own) ?_
  intro above head definition conditional shape known found
  exact Schema.staysInside_of_field? (fits above (Schema.mem_of_type? known)).2 found

theorem Emission.allows_of_fits {schema : Schema} {target : Target} (fits : schema.CommentsFit target) {document : Document}
    {options : Options} {e : Emission} (done : document.compile schema options = .ok e.compiled) :
    e.Allows StaysInside target := by
  obtain ⟨leaves, same, _⟩ := document.exists_leaves done
  have listed {type : TypeDefinition} (used : type ∈ e.enumsUsed) : type ∈ schema.types := by
    obtain ⟨name, _, found⟩ := List.mem_filterMap.mp (List.mem_filter.mp used).1
    rw [Emission.schema, same] at found
    exact Schema.mem_of_type? found
  cases target with
  | json | flow => trivial
  | typeScript => exact fun type used => fits type (listed used)
  | swift => exact ⟨Document.staysInside_of_compile fits done, fun type used => (fits type (listed used)).1⟩

namespace Schema

variable {schema : Schema} {document : Option Document} {target : Target} {options : Options}

def emission (schema : Schema) (document : Option Document) (target : Target) (options : Options) :
    Except Error Emission := do
  options.validate
  let valid ← schema.validDocument document target
  let prepared ← valid.prepare schema (options.forTarget target).addTypename
  let compiled ← prepared.compile schema (options.forTarget target)
  return ⟨compiled, options.forTarget target, document.isNone⟩

theorem generate_eq_emission (schema : Schema) (document : Option Document) (target : Target) (options : Options) :
    schema.generate document target options = do
      let e ← schema.emission document target options
      let source ← e.source target
      return ⟨source, if options.operationIds then some e.compiled.idsJson.toText else none⟩ := by
  rw [generate_eq, emission]
  simp only [bind_assoc, pure_bind]

theorem emission_eq_ok {e : Emission} (emitted : schema.emission document target options = .ok e) :
    ∃ valid prepared, schema.validDocument document target = .ok valid ∧
      valid.prepare schema (options.forTarget target).addTypename = .ok prepared ∧
      prepared.compile schema (options.forTarget target) = .ok e.compiled := by
  obtain ⟨_, _, emitted⟩ := bind_eq_ok.mp emitted
  obtain ⟨valid, isValid, emitted⟩ := bind_eq_ok.mp emitted
  obtain ⟨prepared, prepares, emitted⟩ := bind_eq_ok.mp emitted
  obtain ⟨compiled, done, emitted⟩ := bind_eq_ok.mp emitted
  cases emitted
  exact ⟨valid, prepared, isValid, prepares, done⟩

theorem observed_emission_undescribed (schema : Schema) (document : Option Document) (target : Target)
    (options : Options) :
    observed Emission.undescribed (schema.emission document target options) =
      observed Emission.undescribed (schema.undescribed.emission document target options) := by
  have prepared (valid : Document) (adds : Bool) : valid.prepare schema.undescribed adds = valid.prepare schema adds := by
    simp only [Document.prepare, Document.withDiscriminators_undescribed]
  unfold emission
  rw [validDocument_undescribed]
  cases options.validate with
  | error fault => rfl
  | ok _ =>
    cases schema.validDocument document target with
    | error fault => rfl
    | ok valid =>
      simp only [ok_bind, prepared]
      cases valid.prepare schema (options.forTarget target).addTypename with
      | error fault => rfl
      | ok chosen =>
        rw [ok_bind, ok_bind]
        refine observed_bind (chosen.observed_compile_undescribed schema (options.forTarget target)) ?_
        intro compiled twin _ _ same
        apply congrArg some
        simp only [Emission.undescribed, same]

end Schema

/-- A source has the lines of code of the source that is made without descriptions, and the lines that have left
    their comments. These two sources have the same lines of code exactly if every comment stays inside, and they
    do if the descriptions that the target writes as one comment stay inside. -/
theorem code_lines_of_descriptions {schema : Schema} {document : Option Document} {target : Target}
    {options : Options} {artifacts : Artifacts} (isText : target ≠ .json)
    (done : schema.generate document target options = .ok artifacts) :
    ∃ e comments plain, schema.emission document target options = .ok e ∧ e.comments target = .ok comments ∧
      schema.undescribed.generate document target options = .ok plain ∧
      Extends (strayCount comments) (codeLines artifacts.source) (codeLines plain.source) ∧
      (codeLines artifacts.source = codeLines plain.source ↔ ∀ comment ∈ comments, StaysInside comment) ∧
      (schema.CommentsFit target → codeLines artifacts.source = codeLines plain.source) := by
  rw [Schema.generate_eq_emission] at done
  obtain ⟨e, emitted, done⟩ := bind_eq_ok.mp done
  obtain ⟨text, written, done⟩ := bind_eq_ok.mp done
  cases done
  obtain ⟨both, same⟩ := ok_iff_of_observed (schema.observed_emission_undescribed document target options)
  obtain ⟨twin, emittedTwin⟩ := both.mp ⟨e, emitted⟩
  have alike : e.undescribed = twin.undescribed := same e twin emitted emittedTwin
  obtain ⟨_, prepared, _, _, compiles⟩ := Schema.emission_eq_ok emitted
  obtain ⟨_, preparedTwin, _, _, compilesTwin⟩ := Schema.emission_eq_ok emittedTwin
  -- both sources are compared with that of the compiled document without descriptions
  have shown := Emission.alike_source (fun _ _ _ => trivial) isText (e.allows_all target)
  rw [written] at shown
  obtain ⟨common, writtenCommon, held⟩ := shown.exists_right
  obtain ⟨comments, listed, code⟩ := held.code
  have shownTwin := Emission.alike_source allowsLines_staysInside isText
    (Emission.allows_of_fits (schema.fits_undescribed target) compilesTwin)
  rw [← alike, writtenCommon] at shownTwin
  obtain ⟨textTwin, writtenTwin, heldTwin⟩ := shownTwin.exists_left
  obtain ⟨commentsTwin, listedTwin, codeTwin⟩ := heldTwin.code
  have equal : codeLines textTwin = codeLines common :=
    codeTwin.eq_iff.mpr (strayCount_eq_zero_iff.mpr (heldTwin.clean commentsTwin listedTwin))
  have inside : codeLines text = codeLines textTwin ↔ ∀ comment ∈ comments, StaysInside comment := by
    rw [equal, code.eq_iff, strayCount_eq_zero_iff]
    rfl
  obtain ⟨plain, generated, rfl⟩ :
      ∃ plain, schema.undescribed.generate document target options = .ok plain ∧ plain.source = textTwin := by
    rw [Schema.generate_eq_emission, emittedTwin, ok_bind, writtenTwin]
    exact ⟨_, rfl, rfl⟩
  refine ⟨e, comments, plain, emitted, listed, generated, equal ▸ code, inside, ?_⟩
  intro fits
  have fitting := Emission.alike_source allowsLines_staysInside isText (Emission.allows_of_fits fits compiles)
  rw [written] at fitting
  obtain ⟨_, _, heldInside⟩ := fitting.exists_right
  exact inside.mpr (heldInside.clean comments listed)

/-- The description of a value is written as one comment. -/
theorem TypeScript.mem_comments {e : Emission} {comments : List String}
    (shown : e.comments .typeScript = .ok comments) {type : TypeDefinition} (used : type ∈ e.enumsUsed)
    {value : EnumValue} (member : value ∈ type.values) {description : String}
    (described : value.description = some description) : trim description ∈ comments := by
  obtain ⟨declared, declares, shown⟩ := bind_eq_ok.mp shown
  cases shown
  rw [declarations_eq] at declares
  obtain ⟨shared, made, declares⟩ := bind_eq_ok.mp declares
  obtain ⟨methods, _, declares⟩ := bind_eq_ok.mp declares
  cases declares
  obtain ⟨inputs, operations, fragments, _, _, _, rfl⟩ := Emission.declareAll_eq_ok made
  have inEnum : trim description ∈ (enumDeclaration e type).comments := by
    apply List.mem_append_right
    rw [List.flatMap_map]
    exact List.mem_flatMap.mpr ⟨value, member, by simp [described]⟩
  simp only [List.flatMap_append, List.mem_append]
  left; left; left; left
  exact List.mem_flatMap.mpr ⟨_, List.mem_map_of_mem used, inEnum⟩

namespace Palette

def color : TypeDefinition := ⟨"Color", none, .enum [⟨"RED", some "warm\nand bright"⟩, ⟨"BLUE", none⟩]⟩

def query : TypeDefinition := ⟨"Query", none, .object [] [⟨"color", none, [], .named "Color"⟩]⟩

def schema : Schema := ⟨Schema.definitionsOf [.type query, .type color], "Query", none, none⟩

def selections : List Selection := [Overlap.field "color" []]

def field : ResponseField := ⟨"color", "color", .named "Color", none, false, [], [], []⟩

theorem run : ((Document.ofQuery selections).compiler schema true).Run [] query false selections {}
    ⟨⟨[field], []⟩, [], ["Color"]⟩ := Compiler.collectAll_eq_ok_iff.mp rfl

theorem exists_artifacts :
    ∃ artifacts, schema.generate (some (Document.ofQuery selections)) .typeScript {} = .ok artifacts := by
  apply Document.exists_artifacts_of_ofQuery rfl run rfl rfl rfl rfl
  · exact List.forall_mem_singleton.mpr (ResponseField.everywhere_of_leaf rfl rfl rfl)
  · decide

theorem color_mem_enumsUsed {e : Emission}
    (emitted : schema.emission (some (Document.ofQuery selections)) .typeScript {} = .ok e) : color ∈ e.enumsUsed := by
  obtain ⟨_, _, emitted⟩ := bind_eq_ok.mp emitted
  obtain ⟨valid, validates, emitted⟩ := bind_eq_ok.mp emitted
  obtain ⟨_, _, returned⟩ := bind_eq_ok.mp validates
  cases returned
  obtain ⟨prepared, prepares, emitted⟩ := bind_eq_ok.mp emitted
  cases prepares
  obtain ⟨compiled, done, emitted⟩ := bind_eq_ok.mp emitted
  cases emitted
  obtain ⟨same, operation, compiles, member, _⟩ := Document.compile_ofQuery rfl run rfl rfl
  cases done.symm.trans compiles
  obtain ⟨leaves, ofSchema, used, ofOperations, _⟩ := Document.exists_leaves done
  obtain ⟨source, inDocument, root, s, made, kept⟩ := ofOperations operation member
  cases List.mem_singleton.mp inDocument
  cases made.starts
  have collected := made.run.unique run
  rw [collected] at kept
  have leaf : "Color" ∈ leaves := kept (List.mem_append_right _ List.mem_cons_self)
  have named : "Color" ∈ compiled.typesUsed := by
    rw [used]
    exact List.mem_filter.mpr ⟨Graph.mem_reach_of_mem leaf, rfl⟩
  refine List.mem_filter.mpr ⟨List.mem_filterMap.mpr ⟨"Color", named, ?_⟩, rfl⟩
  rw [Emission.schema, ofSchema]
  rfl

end Palette

/-- The second line of the description of `RED` is no comment. -/
theorem code_lines_of_descriptions_palette :
    ∃ artifacts plain, Palette.schema.generate (some (Document.ofQuery Palette.selections)) .typeScript {} = .ok artifacts ∧
      Palette.schema.undescribed.generate (some (Document.ofQuery Palette.selections)) .typeScript {} = .ok plain ∧
      codeLines artifacts.source ≠ codeLines plain.source := by
  obtain ⟨artifacts, done⟩ := Palette.exists_artifacts
  obtain ⟨e, comments, plain, emitted, shown, generated, _, inside, _⟩ := code_lines_of_descriptions (by decide) done
  refine ⟨artifacts, plain, done, generated, ?_⟩
  intro same
  have listed := TypeScript.mem_comments shown (Palette.color_mem_enumsUsed emitted) List.mem_cons_self rfl
  exact absurd (inside.mp same _ listed) (by decide)

end QueryTypes
