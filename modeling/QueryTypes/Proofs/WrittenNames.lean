import Mathlib.Data.List.Nodup
import QueryTypes.Proofs.StructuralTypes
import QueryTypes.Proofs.ShapeNames

namespace QueryTypes

open ResponseField

theorem nodup_map_iff_of_nodup {α β : Type} {f : α → β} {xs : List α} :
    (xs.map f).Nodup ↔ xs.Nodup ∧ ∀ a ∈ xs, ∀ b ∈ xs, a ≠ b → f a ≠ f b := by
  constructor
  · intro distinct
    refine ⟨distinct.of_map f, fun a inA b inB ne same => ne ?_⟩
    exact List.inj_on_of_nodup_map distinct inA inB same
  · rintro ⟨distinct, apart⟩
    refine distinct.map_on fun a inA b inB same => ?_
    by_contra ne
    exact apart a inA b inB ne same

/-- Two names that have different letters in front, which are one letter as capitals, and else the same. -/
def DifferInCapital (a b : String) : Prop :=
  ∃ c d rest, a.toList = c :: rest ∧ b.toList = d :: rest ∧ c ≠ d ∧ c.toUpper = d.toUpper

theorem toList_upperFirst (name : String) : (upperFirst name).toList = name.toList.modifyHead Char.toUpper := by
  unfold upperFirst
  cases name.toList <;> simp

theorem upperFirst_eq_iff {a b : String} : upperFirst a = upperFirst b ↔ a = b ∨ DifferInCapital a b := by
  have letters : a = b ↔ a.toList = b.toList := String.toList_inj.symm
  rw [← String.toList_inj, toList_upperFirst, toList_upperFirst, letters]
  unfold DifferInCapital
  cases a.toList with
  | nil => cases b.toList <;> simp
  | cons c rest =>
    cases b.toList with
    | nil => simp
    | cons d others =>
      simp only [List.modifyHead_cons, List.cons.injEq]
      grind

theorem DifferInCapital.ne {a b : String} (differ : DifferInCapital a b) : a ≠ b := by
  obtain ⟨c, d, rest, first, second, ne, _⟩ := differ
  rintro rfl
  rw [first] at second
  exact ne (List.cons.inj second).1

theorem upperFirst_separates_iff {a b : String} :
    (a ≠ b → upperFirst a ≠ upperFirst b) ↔ ¬DifferInCapital a b := by
  constructor
  · intro separates differ
    exact separates differ.ne (upperFirst_eq_iff.mpr (.inr differ))
  · intro differ ne same
    exact (upperFirst_eq_iff.mp same).elim ne differ

section Camel

variable (front name : List Char)

theorem Text.pieces_ne_nil (text : List Char) : pieces text ≠ [] := by
  cases text with
  | nil => exact List.cons_ne_nil _ _
  | cons c rest =>
    rw [pieces]
    split
    · exact List.cons_ne_nil _ _
    · split <;> exact List.cons_ne_nil _ _

theorem Text.pieces_append : pieces (front ++ '_' :: name) = pieces front ++ pieces name := by
  induction front with
  | nil =>
    cases found : pieces name with
    | nil => exact absurd found (pieces_ne_nil name)
    | cons piece others => simp [pieces, found]
  | cons c front ih =>
    rw [List.cons_append, pieces, ih, pieces]
    cases found : pieces front with
    | nil => exact absurd found (pieces_ne_nil front)
    | cons piece others =>
      rw [List.cons_append]
      dsimp only
      split <;> rfl

theorem Text.words_append : words (front ++ '_' :: name) = words front ++ words name := by
  rw [words, pieces_append, List.flatMap_append]
  rfl

end Camel

/-- An underscore ends a word, and capitals start the next one without it. -/
theorem upperCamel_append (front name : String) :
    upperCamel (front ++ "_" ++ name) = upperCamel front ++ upperCamel name := by
  have split : (front ++ "_" ++ name).toList = front.toList ++ '_' :: name.toList := by simp
  unfold upperCamel
  rw [split, Text.words_append, List.flatMap_append, String.ofList_append]

theorem nodup_map_append_iff (front : String) (names : List String) :
    (names.map (front ++ ·)).Nodup ↔ names.Nodup :=
  List.nodup_map_iff fun a b same => by simpa using same

section Shapes

variable {e : Emission} {field : ResponseField} {path : List String}

theorem intercalate_shape (filled : path ≠ []) (name : String) :
    "_".intercalate (path ++ [name]) = "_".intercalate path ++ "_" ++ name := by
  rw [String.intercalate_append_of_ne_nil filled (List.cons_ne_nil _ _), String.intercalate_singleton]

namespace Flow

theorem alternatives_nodup_iff (filled : path ≠ []) :
    ((field.propertySets e.schema).map fun set => pathName (path ++ [field.setName set])).Nodup ↔
      (field.shapeNames e.schema).Nodup := by
  have names : ((field.propertySets e.schema).map fun set => pathName (path ++ [field.setName set])) =
      (field.shapeNames e.schema).map (("_".intercalate path ++ "_") ++ ·) := by
    simp [shapeNames, pathName, intercalate_shape filled]
  rw [names, nodup_map_append_iff]

end Flow

namespace TypeScript

theorem setNames_nodup_iff (filled : path ≠ []) :
    (setNames e path field (field.propertySets e.schema)).Nodup ↔
      ((field.shapeNames e.schema).map (declarationName e)).Nodup := by
  unfold setNames pathName declarationName
  cases e.options.pascalCase with
  | false =>
    have names : ((field.propertySets e.schema).map fun set => "_".intercalate (path ++ [field.setName set])) =
        (field.shapeNames e.schema).map (("_".intercalate path ++ "_") ++ ·) := by
      simp [shapeNames, intercalate_shape filled]
    simp only [Bool.false_eq_true, if_false, List.map_id']
    rw [names, nodup_map_append_iff]
  | true =>
    have names : ((field.propertySets e.schema).map fun set =>
          upperCamel ("_".intercalate (path ++ [field.setName set]))) =
        ((field.shapeNames e.schema).map upperCamel).map (upperCamel ("_".intercalate path) ++ ·) := by
      simp [shapeNames, intercalate_shape filled, upperCamel_append]
    simp only [if_true]
    rw [names, nodup_map_append_iff]

end TypeScript

namespace Swift

theorem structNames_nodup_iff :
    (((field.propertySets e.schema).map (variant e field)).map Variant.structName).Nodup ↔
      ((field.shapeNames e.schema).map upperFirst).Nodup := by
  have names : ((field.propertySets e.schema).map (variant e field)).map Variant.structName =
      ((field.shapeNames e.schema).map upperFirst).map ("As" ++ ·) := by
    simp [shapeNames, variant]
  rw [names, nodup_map_append_iff]

/-- Behind `as`, backticks around keywords make no two names the same. -/
theorem identifier_as_injective : Function.Injective fun name => identifier ("as" ++ name) := by
  intro a b same
  have letters := congrArg String.toList same
  dsimp only [identifier] at letters
  -- A name between backticks does not start like one without.
  split at letters
  · split at letters
    · exact String.toList_inj.mp (by simpa using letters)
    · simp at letters
  · split at letters
    · simp at letters
    · exact String.toList_inj.mp (by simpa using letters)

theorem caseNames_nodup_iff :
    (((field.propertySets e.schema).map (variant e field)).map Variant.caseName).Nodup ↔
      ((field.shapeNames e.schema).map upperFirst).Nodup := by
  have names : ((field.propertySets e.schema).map (variant e field)).map Variant.caseName =
      ((field.shapeNames e.schema).map upperFirst).map fun name => identifier ("as" ++ name) := by
    simp [shapeNames, variant]
  rw [names, List.nodup_map_iff identifier_as_injective]

end Swift

/-- Of the shapes of a compiled field, no two have the same written name in Flow exactly if their names are
    distinct. In Swift, no two names may differ in the capital of their first letter alone either, and in
    TypeScript with Pascal case they have to be distinct in this case. -/
theorem Compiled.writtenNames_nodup_iff {schema : Schema} {options : Options} {document : Document}
    (done : document.compile schema options = .ok e.compiled) (has : e.compiled.Has field) (filled : path ≠ []) :
    let names := field.shapeNames e.schema
    let distinct := ¬((∃ set ∈ field.propertySets e.schema, set.condition = none) ∧
      field.type.baseName ∈ field.cases.map TypeCase.condition)
    let variants := (field.propertySets e.schema).map (Swift.variant e field)
    (((field.propertySets e.schema).map fun set => Flow.pathName (path ++ [field.setName set])).Nodup ↔ distinct) ∧
    ((TypeScript.setNames e path field (field.propertySets e.schema)).Nodup ↔
      distinct ∧ (e.options.pascalCase = true → ∀ a ∈ names, ∀ b ∈ names, a ≠ b → upperCamel a ≠ upperCamel b)) ∧
    ((variants.map Swift.Variant.structName).Nodup ↔
      distinct ∧ ∀ a ∈ names, ∀ b ∈ names, ¬DifferInCapital a b) ∧
    ((variants.map Swift.Variant.caseName).Nodup ↔ (variants.map Swift.Variant.structName).Nodup) := by
  intro names distinct variants
  have conditions := (wellKeyed_iff.mp (has.wellKeyed done)).2.2.conditions
  have unique : names.Nodup ↔ distinct := shapeNames_nodup_iff conditions
  refine ⟨?_, ?_, ?_, ?_⟩
  · rw [Flow.alternatives_nodup_iff filled, unique]
  · rw [TypeScript.setNames_nodup_iff filled, nodup_map_iff_of_nodup, unique]
    unfold TypeScript.declarationName
    cases e.options.pascalCase <;> simp [names]
  · rw [Swift.structNames_nodup_iff, nodup_map_iff_of_nodup, unique]
    refine and_congr_right fun _ => forall₂_congr fun a _ => forall₂_congr fun b _ => ?_
    exact upperFirst_separates_iff
  · rw [Swift.caseNames_nodup_iff, Swift.structNames_nodup_iff]

end Shapes

example : upperCamel "Foo_Bar" = upperCamel "FooBar" ∧ upperFirst "Foo_Bar" ≠ upperFirst "FooBar" := by decide

namespace Casing

open Overlap (int leaf inline)

def object (name : String) : SchemaItem := .type ⟨name, none, .object ["A"] [int "x"]⟩

def schema : Schema :=
  ⟨Schema.definitionsOf [.type Overlap.query, .type Overlap.interfaceA, object "t", object "T"], "Query", none, none⟩

/-- `n { ... on t { x } ... on T { x } }` -/
def selections : List Selection :=
  [Overlap.field "n" [inline "t" [Overlap.field "x" []], inline "T" [Overlap.field "x" []]]]

def field : ResponseField :=
  ⟨"n", "n", .named "A", none, false, [], [], [⟨"t", ["t"], [leaf "x"], []⟩, ⟨"T", ["T"], [leaf "x"], []⟩]⟩

theorem run : ((Document.ofQuery selections).compiler schema true).Run [] Overlap.query false selections {}
    ⟨⟨[field], []⟩, [], ["Int"]⟩ := Compiler.collectAll_eq_ok_iff.mp rfl

/-- The shapes of `n` have distinct names, and Swift writes them the same, and TypeScript with Pascal case as
    well. -/
theorem written_twice : ∃ compiled, (Document.ofQuery selections).compile schema {} = .ok compiled ∧
    compiled.Has field ∧ (field.shapeNames schema).Nodup ∧
    ∀ e : Emission, e.compiled = compiled →
      ¬(((field.propertySets e.schema).map (Swift.variant e field)).map Swift.Variant.structName).Nodup ∧
      (e.options.pascalCase = true → ∀ path ≠ [],
        ¬(TypeScript.setNames e path field (field.propertySets e.schema)).Nodup) := by
  obtain ⟨compiled, operation, done, member, fields⟩ := Document.compile_ofQuery rfl run rfl rfl
  have has : compiled.Has field := by
    refine .inl ⟨operation, member, .here ?_⟩
    rw [fields]
    exact List.mem_singleton_self _
  refine ⟨compiled, done, has, by decide, ?_⟩
  rintro e rfl
  obtain ⟨_, same, _⟩ := Document.exists_leaves done
  have names : field.shapeNames e.schema = ["t", "T"] := by
    rw [Emission.schema, same]
    rfl
  constructor
  · rw [Swift.structNames_nodup_iff, names]
    decide
  · intro pascal path filled
    rw [TypeScript.setNames_nodup_iff filled, names]
    unfold TypeScript.declarationName
    rw [pascal]
    decide

end Casing

end QueryTypes
