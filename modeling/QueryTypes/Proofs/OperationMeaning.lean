import QueryTypes.Proofs.Nesting
import QueryTypes.Proofs.OperationText

namespace QueryTypes

namespace Schema

section Text

variable {schema : Schema} (schemaNamed : schema.Named) {kind : OperationKind} {name : String}
  (isName : isName name = true) {field : FieldDefinition} (printable : field.Printable) {text : String}
  (written : schema.operationText kind name field = .ok text)

include schemaNamed isName printable written

theorem deepest_written : Token.deepest 0 text.toList = Token.deepest 0
    ((operationTokens kind name field (schema.expand [] field.type.baseName)).filterMap Token.bracket?) := by
  have prints := prints_operation isName printable (namedAll_expand schemaNamed [] _) written
  rw [← prints.brackets, Token.deepest_filter]

theorem deepest_le_of_read {path : Option String} {document : Document}
    (read : Document.read path text = .ok document) : Token.deepest 0 text.toList ≤ Token.nestingLimit := by
  have prints := prints_operation isName printable (namedAll_expand schemaNamed [] _) written
  have lexes := prints.spells [] [] nofun .nil
  rw [List.append_nil, List.append_nil] at lexes
  rw [deepest_written schemaNamed isName printable written]
  exact Document.deepest_le_of_parse (Document.read_eq_ok_iff.mp read) lexes

end Text

theorem Named.printable {schema : Schema} (named : schema.Named) {type : TypeDefinition} (listed : type ∈ schema.types)
    {field : FieldDefinition} (member : field ∈ type.fields)
    (single : ∀ argument ∈ field.arguments, argument.type.hasDoubleNonNull = false) : field.Printable where
  isName := named.fields type listed field member
  arguments := fun argument ofField =>
    have names := named.arguments type listed field member argument ofField
    ⟨names.1, names.2, single argument ofField⟩

end Schema

/-- The operation on a root field is written unless an argument has a type that no text has. What is
    written is read exactly if at most 50 brackets are open at once. It is then read as one operation
    of that kind and name, with a variable of the same type for each argument and no default, on the
    root field with each argument given its variable and with what the type of the field expands to. -/
theorem operationText_meaning {schema : Schema} (named : schema.Named) {kind : OperationKind} {root : TypeDefinition}
    (starts : schema.root kind = .ok root) {field : FieldDefinition} (member : field ∈ root.fields) {name : String}
    (isName : isName name = true) (path : Option String) :
    ((∃ text, schema.operationText kind name field = .ok text) ↔
      ∀ argument ∈ field.arguments, argument.type.hasDoubleNonNull = false) ∧
    ∀ text, schema.operationText kind name field = .ok text →
      ((∃ document, Document.read path text = .ok document) ↔ Token.deepest 0 text.toList ≤ 50) ∧
      ∀ document, Document.read path text = .ok document → ∃ operation, document = ⟨[.operation operation]⟩ ∧
        operation.unplaced = Schema.operationOn kind name field (schema.expand [] field.type.baseName) := by
  refine ⟨schema.exists_operationText_iff kind name field, fun text written => ?_⟩
  have single := (schema.exists_operationText_iff kind name field).mp ⟨text, written⟩
  have printable := named.printable (Schema.mem_of_type? (Schema.name_of_root starts).2) member single
  obtain ⟨sound, complete⟩ := Schema.read_written named isName printable path written
  refine ⟨⟨?_, complete⟩, sound⟩
  rintro ⟨document, read⟩
  exact Schema.deepest_le_of_read named isName printable written read

namespace Nested

def lists : Nat → TypeRef
  | 0 => .named "Int"
  | count + 1 => .list (lists count)

def field (name : String) (count : Nat) : FieldDefinition :=
  ⟨name, none, [⟨"x", none, lists count, false⟩], .named "Query"⟩

def query : TypeDefinition := ⟨"Query", none, .object [] [field "near" 49, field "far" 50]⟩

def schema : Schema := ⟨[query], "Query", none, none⟩

theorem named : schema.Named where
  fields := by decide
  arguments := by decide
  inputFields := by decide

theorem deepest_text {name : String} {count : Nat} (listed : field name count ∈ query.fields) {text : String}
    (written : schema.operationText .query name (field name count) = .ok text) :
    Token.deepest 0 text.toList = Token.deepest 0
      ((Schema.operationTokens .query name (field name count) (schema.expand [] "Query")).filterMap
        Token.bracket?) := by
  have single := (schema.exists_operationText_iff .query name (field name count)).mp ⟨text, written⟩
  have printable := named.printable List.mem_cons_self listed single
  exact Schema.deepest_written named printable.isName printable written

end Nested

/-- One more list around the type of a variable is one bracket too many. -/
theorem operationText_meaning_nested :
    Nested.schema.Named ∧ Nested.schema.root .query = .ok Nested.query ∧
      (∃ text operation, Nested.schema.operationText .query "near" (Nested.field "near" 49) = .ok text ∧
        Document.read none text = .ok ⟨[.operation operation]⟩ ∧
        operation.unplaced = Schema.operationOn .query "near" (Nested.field "near" 49)
          (Nested.schema.expand [] "Query")) ∧
      ∃ text, Nested.schema.operationText .query "far" (Nested.field "far" 50) = .ok text ∧
        ¬∃ document, Document.read none text = .ok document := by
  have starts : Nested.schema.root .query = .ok Nested.query := rfl
  have nearField : Nested.field "near" 49 ∈ Nested.query.fields := by decide
  have farField : Nested.field "far" 50 ∈ Nested.query.fields := by decide
  obtain ⟨nearWritten, nearRead⟩ := operationText_meaning Nested.named starts nearField (by decide : isName "near") none
  obtain ⟨farWritten, farRead⟩ := operationText_meaning Nested.named starts farField (by decide : isName "far") none
  refine ⟨Nested.named, starts, ?_, ?_⟩
  · obtain ⟨text, written⟩ := nearWritten.mpr (by decide)
    obtain ⟨readable, meaning⟩ := nearRead text written
    have deepest : Token.deepest 0 text.toList = 50 := (Nested.deepest_text nearField written).trans (by decide +kernel)
    obtain ⟨document, read⟩ := readable.mpr (by omega)
    obtain ⟨operation, rfl, same⟩ := meaning document read
    exact ⟨text, operation, written, read, same⟩
  · obtain ⟨text, written⟩ := farWritten.mpr (by decide)
    obtain ⟨readable, _⟩ := farRead text written
    have deepest : Token.deepest 0 text.toList = 51 := (Nested.deepest_text farField written).trans (by decide +kernel)
    refine ⟨text, written, fun read => ?_⟩
    have bound := readable.mp read
    omega

end QueryTypes
