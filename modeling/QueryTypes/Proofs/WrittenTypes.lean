import QueryTypes.Declaration.Flow
import QueryTypes.Declaration.Swift
import QueryTypes.Declaration.TypeScript
import QueryTypes.Proofs.Results

namespace QueryTypes

inductive Layer where
  | list
  | nullable
  deriving DecidableEq

namespace TypeRef

/-- The layers that a type is written with, from the outside in. A non-null type is one that lacks the
    outer layer of a type that may be null. -/
def layers (nullable : Bool) : TypeRef → List Layer
  | named _ => if nullable then [.nullable] else []
  | list element => (if nullable then [.nullable] else []) ++ .list :: element.layers true
  | nonNull inner => inner.layers false

variable {type other : TypeRef}

theorem single_of_nonNull (single : (nonNull type).hasDoubleNonNull = false) :
    type.isNonNull = false ∧ type.hasDoubleNonNull = false := by
  rwa [hasDoubleNonNull, Bool.or_eq_false_iff] at single

theorem layers_of_nullable (nullable : type.isNonNull = false) :
    type.layers true = .nullable :: type.layers false := by
  cases type with
  | named name => rfl
  | list element => rfl
  | nonNull inner => cases nullable

theorem layers_ne (nullable : type.isNonNull = false) (rest : List Layer) :
    type.layers false ≠ .nullable :: rest := by
  cases type with
  | named name => simp [layers]
  | list element => simp [layers]
  | nonNull inner => cases nullable

/-- A type without superfluous layers is known by its layers and the name inside. -/
theorem eq_of_layers_eq (single : type.hasDoubleNonNull = false) (otherSingle : other.hasDoubleNonNull = false)
    (base : type.baseName = other.baseName) (same : type.layers true = other.layers true) : type = other := by
  induction type generalizing other with
  | named name =>
    cases other with
    | named otherName => exact congrArg named base
    | list element => simp [layers] at same
    | nonNull inner => exact absurd same.symm (layers_ne (single_of_nonNull otherSingle).1 _)
  | list element ih =>
    cases other with
    | named otherName => simp [layers] at same
    | list otherElement =>
      have inside : element.layers true = otherElement.layers true := by simpa [layers] using same
      exact congrArg list (ih single otherSingle base inside)
    | nonNull inner => exact absurd same.symm (layers_ne (single_of_nonNull otherSingle).1 _)
  | nonNull inner ih =>
    obtain ⟨nullable, innerSingle⟩ := single_of_nonNull single
    cases other with
    | named otherName => exact absurd same (layers_ne nullable _)
    | list otherElement => exact absurd same (layers_ne nullable _)
    | nonNull otherInner =>
      obtain ⟨otherNullable, otherInnerSingle⟩ := single_of_nonNull otherSingle
      have inside : inner.layers true = otherInner.layers true := by
        rw [layers_of_nullable nullable, layers_of_nullable otherNullable]
        exact congrArg (Layer.nullable :: ·) same
      exact congrArg nonNull (ih innerSingle otherInnerSingle base inside)

end TypeRef

theorem Around.write_within (inner outer : Around) (text : String) :
    (inner.within outer).write text = outer.write (inner.write text) := by
  simp [within, write, String.append_assoc]

theorem Around.write_inj {around : Around} {text other : String} (same : around.write text = around.write other) :
    text = other := by
  have characters := congrArg String.toList same
  simp only [write, String.toList_append] at characters
  exact String.toList_inj.mp (List.append_cancel_left (List.append_cancel_right characters))

namespace TypeStyle

def part (style : TypeStyle) : Layer → Around
  | .list => style.list
  | .nullable => style.nullable

def wrap (style : TypeStyle) (leaf : String) : List Layer → String
  | [] => leaf
  | layer :: rest => (style.part layer).write (style.wrap leaf rest)

variable (style : TypeStyle)

theorem layers_eq_ok {type : TypeRef} (single : type.hasDoubleNonNull = false) (nullable : Bool) :
    ∃ around, style.layers nullable type = .ok around ∧
      ∀ leaf, around.write leaf = style.wrap leaf (type.layers nullable) := by
  induction type generalizing nullable with
  | named name =>
    cases nullable with
    | true => exact ⟨style.nullable, rfl, fun leaf => rfl⟩
    | false => exact ⟨⟨"", ""⟩, rfl, fun leaf => by simp [Around.write, TypeRef.layers, wrap]⟩
  | list element ih =>
    obtain ⟨inner, written, shows⟩ := ih single true
    cases nullable with
    | true =>
      refine ⟨(inner.within style.list).within style.nullable, by rw [layers, written]; rfl, fun leaf => ?_⟩
      rw [Around.write_within, Around.write_within, shows]
      rfl
    | false =>
      refine ⟨inner.within style.list, by rw [layers, written]; rfl, fun leaf => ?_⟩
      rw [Around.write_within, shows]
      rfl
  | nonNull inner ih =>
    obtain ⟨notDouble, innerSingle⟩ := TypeRef.single_of_nonNull single
    obtain ⟨around, written, shows⟩ := ih innerSingle false
    refine ⟨around, ?_, shows⟩
    cases inner with
    | nonNull inner => cases notDouble
    | _ => exact written

theorem layers_eq_error {type : TypeRef} (double : type.hasDoubleNonNull = true) (nullable : Bool) :
    ∃ e, style.layers nullable type = .error e := by
  induction type generalizing nullable with
  | named name => cases double
  | list element ih =>
    obtain ⟨e, failed⟩ := ih double true
    exact ⟨e, by rw [layers, failed]; rfl⟩
  | nonNull inner ih =>
    cases inner with
    | nonNull inner => exact ⟨_, rfl⟩
    | named name => cases double
    | list element => exact ih double false

theorem write_eq_ok {type : TypeRef} (single : type.hasDoubleNonNull = false) (leaf : String) :
    style.write type leaf = .ok (style.wrap leaf (type.layers true)) := by
  obtain ⟨around, written, shows⟩ := style.layers_eq_ok single true
  rw [write, TypeStyle.around, written, ok_bind, shows]
  rfl

theorem write_eq_error_iff (type : TypeRef) (leaf : String) :
    (∃ e, style.write type leaf = .error e) ↔ type.hasDoubleNonNull = true := by
  cases double : type.hasDoubleNonNull with
  | true =>
    obtain ⟨e, failed⟩ := style.layers_eq_error double true
    refine iff_of_true ⟨e, ?_⟩ rfl
    rw [write, TypeStyle.around, failed, error_bind]
  | false =>
    rw [style.write_eq_ok double]
    simp

/-- A style whose texts can be taken apart: each layer has a character that stands once in it and not in
    the other one, and the outermost layer of a text is known. -/
structure Legible (style : TypeStyle) : Prop where
  marked : ∀ layer, ∃ mark, ∀ other,
    ((style.part other).write "").toList.count mark = if other = layer then 1 else 0
  apart : ∀ inside outside : String, style.list.write inside ≠ style.nullable.write outside

variable {style}

theorem count_wrap {layer : Layer} {mark : Char}
    (marked : ∀ other, ((style.part other).write "").toList.count mark = if other = layer then 1 else 0)
    (leaf : String) (layers : List Layer) :
    (style.wrap leaf layers).toList.count mark = layers.count layer + leaf.toList.count mark := by
  induction layers with
  | nil => simp [wrap]
  | cons outer rest ih =>
    have own := marked outer
    simp only [Around.write, String.toList_append, List.count_append, String.toList_empty, List.count_nil] at own
    simp only [wrap, Around.write, String.toList_append, List.count_append, ih, List.count_cons, beq_iff_eq]
    omega

theorem Legible.length_eq (legible : style.Legible) {leaf : String} {layers others : List Layer}
    (same : style.wrap leaf layers = style.wrap leaf others) : layers.length = others.length := by
  have counts : layers.Perm others := by
    rw [List.perm_iff_count]
    intro layer
    obtain ⟨mark, marked⟩ := legible.marked layer
    have shown := count_wrap marked leaf layers
    rw [same, count_wrap marked] at shown
    omega
  exact counts.length_eq

theorem Legible.wrap_inj (legible : style.Legible) {leaf : String} {layers others : List Layer}
    (same : style.wrap leaf layers = style.wrap leaf others) : layers = others := by
  -- the leaf may look like layers, so what stops the induction is the number of layers
  have length := legible.length_eq same
  induction layers generalizing others with
  | nil => exact (List.length_eq_zero_iff.mp length.symm).symm
  | cons outer rest ih =>
    cases others with
    | nil => cases length
    | cons otherOuter otherRest =>
      have outermost : outer = otherOuter := by
        cases outer <;> cases otherOuter
        · rfl
        · exact absurd same (legible.apart _ _)
        · exact absurd same.symm (legible.apart _ _)
        · rfl
      subst outermost
      rw [ih (Around.write_inj same) (Nat.succ.inj length)]

end TypeStyle

open TypeStyle

theorem Swift.legible : Legible Swift.style where
  marked layer := by
    cases layer with
    | list => exact ⟨'[', fun other => by cases other <;> decide⟩
    | nullable => exact ⟨'?', fun other => by cases other <;> decide⟩
  apart inside outside same := by
    have last := congrArg (·.toList.reverse.head?) same
    simp only [Swift.style, Around.write, String.toList_append, List.reverse_append] at last
    cases last

theorem TypeScript.legible : Legible TypeScript.style where
  marked layer := by
    cases layer with
    | list => exact ⟨'<', fun other => by cases other <;> decide⟩
    | nullable => exact ⟨'|', fun other => by cases other <;> decide⟩
  apart inside outside same := by
    have last := congrArg (·.toList.reverse.head?) same
    simp only [TypeScript.style, Around.write, String.toList_append, List.reverse_append] at last
    cases last

theorem Flow.legible : Legible Flow.style where
  marked layer := by
    cases layer with
    | list => exact ⟨'<', fun other => by cases other <;> decide⟩
    | nullable => exact ⟨'?', fun other => by cases other <;> decide⟩
  apart inside outside same := by
    have first := congrArg (·.toList.head?) same
    simp [Flow.style, Around.write] at first

theorem text_leafType (e : Emission) (style : TypeStyle) (rename : String → String) (type : TypeRef) :
    MemberType.text <$> e.leafType style rename type = style.write type (e.leaf rename type.baseName).text := by
  unfold Emission.leafType TypeStyle.write
  cases style.around type with
  | error e => rfl
  | ok around => simp [MemberType.text]

/-- In each of the languages with written types, exactly the types without a non-null layer directly
    around another one can be written, and two of them around the same name have the same text only if
    they are equal, whatever the text is that stands for the name. Properties of object types are
    written so as well. -/
theorem written_types_differ (style : TypeStyle) (known : style ∈ [Swift.style, TypeScript.style, Flow.style])
    (leaf : String) :
    (∀ type, (∃ e, style.write type leaf = .error e) ↔ type.hasDoubleNonNull = true) ∧
    (∀ type other, type.hasDoubleNonNull = false → other.hasDoubleNonNull = false →
      type.baseName = other.baseName → style.write type leaf = style.write other leaf → type = other) ∧
    ∀ (e : Emission) rename type,
      MemberType.text <$> e.leafType style rename type = style.write type (e.leaf rename type.baseName).text := by
  have legible : Legible style := by
    simp only [List.mem_cons, List.not_mem_nil, or_false] at known
    rcases known with rfl | rfl | rfl
    · exact Swift.legible
    · exact TypeScript.legible
    · exact Flow.legible
  refine ⟨fun type => style.write_eq_error_iff type leaf, ?_, fun e => text_leafType e style⟩
  intro type other single otherSingle base same
  rw [style.write_eq_ok single, style.write_eq_ok otherSingle] at same
  exact TypeRef.eq_of_layers_eq single otherSingle base (legible.wrap_inj (Except.ok.inj same))

namespace Grid

def rows : TypeRef := .list (.nonNull (.list (.named "Int")))

def columns : TypeRef := .nonNull (.list (.list (.named "Int")))

end Grid

theorem written_types_differ_grid :
    Swift.style.write Grid.rows "Int" = .ok "[[Int?]]?" ∧
      Swift.style.write Grid.columns "Int" = .ok "[[Int?]?]" ∧
      Flow.style.write Grid.rows "number" ≠ Flow.style.write Grid.columns "number" ∧
      ∃ e, TypeScript.style.write (.list (.nonNull Grid.columns)) "number" = .error e := by
  obtain ⟨_, flow, _⟩ := written_types_differ Flow.style (by decide) "number"
  obtain ⟨script, _⟩ := written_types_differ TypeScript.style (by decide) "number"
  refine ⟨rfl, rfl, fun same => ?_, (script _).mpr rfl⟩
  have equal := flow Grid.rows Grid.columns rfl rfl rfl same
  cases equal

end QueryTypes
