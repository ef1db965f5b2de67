import QueryTypes.Proofs.DefaultOperations
import QueryTypes.Proofs.JoinedDocuments
import QueryTypes.Proofs.OperationStrings
import QueryTypes.Proofs.PlacelessReading
import QueryTypes.Proofs.Rereading

namespace QueryTypes

/-- The text of an operation is that of a definition of the document and those of the fragments that it
    needs. -/
structure CompiledOperation.IsFrom (operation : CompiledOperation) (document : Document) (source : Operation)
    (fragments : List Fragment) : Prop where
  inDocument : source ∈ document.operations
  subset : fragments ⊆ document.fragments
  name : source.name? = some operation.name
  kind : source.kind = operation.kind
  referenced : fragments.map Fragment.name = operation.fragmentsReferenced
  text : operation.sourceWithFragments =
    "\n".intercalate ((Definition.operation source :: fragments.map .fragment).map Definition.toText)

namespace Compiler

/-- The fragments whose texts are joined are found by name. -/
theorem exists_of_joinSources {fragments : List Fragment} {compiled : List CompiledFragment}
    (each : ∀ c ∈ compiled, ∃ fragment ∈ fragments,
      c.name = fragment.name ∧ c.source = (Definition.fragment fragment).toText)
    {source whole : String} {names : List String} (joined : joinSources compiled source names = .ok whole) :
    ∃ used ⊆ fragments, used.map Fragment.name = names ∧
      whole = "\n".intercalate (source :: (used.map Definition.fragment).map Definition.toText) := by
  obtain ⟨sources, found, done⟩ := bind_eq_ok.mp joined
  cases done
  clear joined
  suffices ∃ used ⊆ fragments, used.map Fragment.name = names ∧
      sources = (used.map Definition.fragment).map Definition.toText by
    obtain ⟨used, subset, sameNames, rfl⟩ := this
    exact ⟨used, subset, sameNames, rfl⟩
  induction names generalizing sources with
  | nil =>
    cases found
    exact ⟨[], List.nil_subset _, rfl, rfl⟩
  | cons name names ih =>
    rw [List.mapM_cons] at found
    obtain ⟨first, isFirst, found⟩ := bind_eq_ok.mp found
    obtain ⟨rest, others, found⟩ := bind_eq_ok.mp found
    cases found
    obtain ⟨used, subset, sameNames, rfl⟩ := ih _ others
    split at isFirst
    · rename_i c isNamed
      cases isFirst
      obtain ⟨fragment, listed, sameName, text⟩ := each c (List.mem_of_find?_eq_some isNamed)
      have named : c.name = name := by simpa using List.find?_some isNamed
      refine ⟨fragment :: used, List.cons_subset.mpr ⟨listed, subset⟩, ?_, ?_⟩
      · rw [List.map_cons, sameNames, ← sameName, named]
      · rw [List.map_cons, List.map_cons, text]
    · cases isFirst

end Compiler

namespace Document

variable {schema : Schema} {options : Options} {document : Document} {compiled : Compiled}

theorem exists_isFrom (done : document.compile schema options = .ok compiled) {operation : CompiledOperation}
    (member : operation ∈ compiled.operations) : ∃ source fragments, operation.IsFrom document source fragments := by
  obtain ⟨_, _, _, ofOperations, ofFragments⟩ := document.exists_leaves done
  obtain ⟨source, inDocument, root, s, compiles, _⟩ := ofOperations operation member
  have each : ∀ c ∈ compiled.fragments, ∃ fragment ∈ document.fragments,
      c.name = fragment.name ∧ c.source = (Definition.fragment fragment).toText := by
    intro c listed
    obtain ⟨fragment, inDocument, _, _, made, _⟩ := ofFragments c listed
    exact ⟨fragment, inDocument, made.name, made.text⟩
  obtain ⟨used, subset, sameNames, text⟩ := Compiler.exists_of_joinSources each compiles.joins
  rw [compiles.text] at text
  exact ⟨source, used, ⟨inDocument, subset, compiles.name, compiles.kind.symm, sameNames, text⟩⟩

end Document

theorem CompiledOperation.IsFrom.mem {operation : CompiledOperation} {document : Document} {source : Operation}
    {fragments : List Fragment} (isFrom : operation.IsFrom document source fragments) :
    ∀ definition ∈ Definition.operation source :: fragments.map .fragment, definition ∈ document.definitions := by
  rw [List.forall_mem_cons]
  refine ⟨Document.mem_operations.mp isFrom.inDocument, ?_⟩
  intro definition member
  obtain ⟨fragment, listed, rfl⟩ := List.mem_map.mp member
  exact Document.mem_fragments.mp (isFrom.subset listed)

theorem Schema.readable_validDocument {schema : Schema} {document : Option Document} {target : Target}
    {valid : Document} (isRead : ∀ given ∈ document, given.IsRead) (isValid : schema.validDocument document target = .ok valid) :
    valid.Readable := by
  cases document with
  | some given =>
    obtain ⟨_, _, same⟩ := bind_eq_ok.mp isValid
    cases same
    exact (isRead valid rfl).readable
  | none =>
    obtain ⟨made, isMade, isValid⟩ := bind_eq_ok.mp isValid
    obtain ⟨_, _, same⟩ := bind_eq_ok.mp isValid
    cases same
    rw [Schema.defaultDocument_eq] at isMade
    obtain ⟨documents, read, added⟩ := bind_eq_ok.mp isMade
    have readable : (Document.concat documents).Readable := by
      intro definition member
      obtain ⟨document, listed, inDocument⟩ := List.mem_flatMap.mp member
      obtain ⟨entry, _, ok⟩ := exists_of_mem_mapM read listed
      obtain ⟨text, _, ok⟩ := bind_eq_ok.mp ok
      exact Document.readable_of_parse (Document.read_eq_ok_iff.mp ok) inDocument
    have prepares : (Document.concat documents).prepare schema true = .ok valid := added
    exact readable.prepare prepares

def CompiledOperation.joinedText (operation : CompiledOperation) : String :=
  String.ofList (Text.lines operation.sourceWithFragments.toList).flatten

/-- The source has a class for the operation, and the literals in it add up to the string. -/
def Swift.HasString (source : String) (operation : CompiledOperation) (string : String) : Prop :=
  ∃ before indent after, source.toList = before ++
      (textHeading (upperFirst operation.name ++ operation.kind.suffix) operation.kind indent).toList ++ after ∧
    stringValue? after = some string.toList

namespace CompiledOperation.IsFrom

variable {operation : CompiledOperation} {document : Document} {source : Operation} {fragments : List Fragment}
  (isFrom : operation.IsFrom document source fragments)

include isFrom

theorem text_ne_empty : operation.sourceWithFragments ≠ "" := by
  have own : (Definition.operation source).toText ≠ "" := by
    intro none
    have characters := Definition.toList_toText (.operation source)
    rw [none] at characters
    simp at characters
  rw [isFrom.text, List.map_cons]
  cases fragments with
  | nil => simpa using own
  | cons first rest =>
    rw [List.map_cons, List.map_cons, String.intercalate_cons_of_ne_nil (List.cons_ne_nil _ _)]
    simp [own]

theorem seamless (readable : document.Readable)
    (together : ∀ definition ∈ Definition.operation source :: fragments.map .fragment,
      ∀ leaf ∈ definition.leaves, leaf.IsTogether) :
    Token.Seamless operation.sourceWithFragments.toList
      ((Definition.operation source :: fragments.map .fragment).flatMap Definition.tokens) := by
  rw [isFrom.text]
  exact Definition.seamless_sources
    (fun definition member => readable definition (isFrom.mem definition member)) together

end CompiledOperation.IsFrom

/-- A document of one operation has no other definition behind its text. -/
theorem CompiledOperation.IsFrom.eq_of_ofOperation {operation : CompiledOperation} {source other : Operation}
    {fragments : List Fragment} (isFrom : operation.IsFrom (.ofOperation source) other fragments) :
    other = source ∧ fragments = [] :=
  ⟨List.mem_singleton.mp isFrom.inDocument, List.subset_nil.mp isFrom.subset⟩

namespace Quoting

def query : TypeDefinition :=
  ⟨"Query", none, .object [] [⟨"a", none, [⟨"x", none, .named "String", false⟩, ⟨"y", none, .named "Float", false⟩],
    .named "Int"⟩]⟩

def schema : Schema := ⟨Schema.definitionsOf [.type query], "Query", none, none⟩

def wholeText : String := "query Q($y:Float=2.50)\x7ba(x:\"say \\\"hi\\\" \\\\\",y:$y)b:a(x:\"\\n\")\x7d"

def whole : Operation :=
  ⟨⟨1, 1⟩, some ⟨.query, some "Q",
      [⟨⟨1, 9⟩, "y", .named "Float", some (.float (.finite false 5629499534213120 (-51)))⟩], []⟩,
    ⟨⟨⟨1, 23⟩, ⟨1, 60⟩⟩, [
      .field ⟨⟨1, 24⟩, none, "a", [⟨"x", .string "say \"hi\" \\"⟩, ⟨"y", .var "y"⟩], []⟩ (.point ⟨1, 24⟩) [],
      .field ⟨⟨1, 49⟩, some "b", "a", [⟨"x", .string "\n"⟩], []⟩ (.point ⟨1, 49⟩) []]⟩⟩

def partedText : String := "query Q\x7ba(x:\"\"\"one\ntwo\"\"\")\x7d"

def parted : Operation :=
  ⟨⟨1, 1⟩, some ⟨.query, some "Q", [], []⟩, ⟨⟨⟨1, 8⟩, ⟨2, 8⟩⟩,
    [.field ⟨⟨1, 9⟩, none, "a", [⟨"x", .string "one\ntwo"⟩], []⟩ (.point ⟨1, 9⟩) []]⟩⟩

theorem parse_whole : Document.parse wholeText = .ok (.ofOperation whole) := by decide +kernel

theorem parse_parted : Document.parse partedText = .ok (.ofOperation parted) := by decide +kernel

def field (name : String) : ResponseField := ⟨name, "a", .named "Int", none, false, [], [], []⟩

theorem run_whole : ((Document.ofOperation whole).compiler schema true).Run [] query false
    whole.selectionSet.items {} ⟨⟨[field "a", field "b"], []⟩, [], ["Int"]⟩ := Compiler.collectAll_eq_ok_iff.mp rfl

theorem run_parted : ((Document.ofOperation parted).compiler schema true).Run [] query false
    parted.selectionSet.items {} ⟨⟨[field "a"], []⟩, [], ["Int"]⟩ := Compiler.collectAll_eq_ok_iff.mp rfl

section Generated

variable {source : Operation} {s : Collection} (named : source.name? = some "Q")
  (isRoot : schema.root source.kind = .ok query)
  (run : ((Document.ofOperation source).compiler schema true).Run [] query false source.selectionSet.items {} s)
  (noBranches : s.branches = []) (noSpreads : Selection.spreadNamesAll source.selectionSet.items = [])
  (kept : (Document.ofOperation source).prepare schema true = .ok (.ofOperation source))

include named isRoot run noBranches noSpreads kept

theorem exists_operation {valid prepared : Document} {compiled : Compiled}
    (isValid : schema.validDocument (some (.ofOperation source)) .swift = .ok valid)
    (prepares : valid.prepare schema (Options.forTarget {} .swift).addTypename = .ok prepared)
    (compiles : prepared.compile schema (Options.forTarget {} .swift) = .ok compiled) :
    prepared = .ofOperation source ∧ ∃ operation, operation ∈ compiled.operations := by
  obtain ⟨_, _, same⟩ := bind_eq_ok.mp isValid
  cases same
  cases prepares.symm.trans kept
  have run : ((Document.ofOperation source).compiler schema (Options.forTarget {} .swift).mergeSpreads).Run [] query
    false source.selectionSet.items {} s := run
  obtain ⟨_, operation, also, member, _⟩ := Document.compile_ofOperation named isRoot run noBranches noSpreads
  cases compiles.symm.trans also
  exact ⟨rfl, operation, member⟩

end Generated

theorem writable_field (name : String) : (field name).Writable := ResponseField.everywhere_of_leaf rfl rfl rfl

theorem exists_artifacts_whole :
    ∃ artifacts, schema.generate (some (.ofOperation whole)) .swift {} = .ok artifacts := by
  apply Document.exists_artifacts_of_ofOperation rfl rfl run_whole rfl rfl (by decide) (by decide)
  · exact List.forall_mem_cons.mpr ⟨writable_field "a", List.forall_mem_singleton.mpr (writable_field "b")⟩
  · decide
  · decide

theorem exists_artifacts_parted :
    ∃ artifacts, schema.generate (some (.ofOperation parted)) .swift {} = .ok artifacts := by
  apply Document.exists_artifacts_of_ofOperation rfl rfl run_parted rfl rfl (by decide) (by decide)
  · exact List.forall_mem_singleton.mpr (writable_field "a")
  · exact nofun
  · decide

end Quoting

/-- The string in the class of an operation is its text with the lines joined. If no string value is
    written on several lines, except blank ones, both texts are read as the same definitions, and they
    are read if all numbers can be. -/
theorem operationString_parses {schema : Schema} {document : Option Document} {options : Options}
    {artifacts : Artifacts} (isRead : ∀ given ∈ document, given.IsRead)
    (done : schema.generate document .swift options = .ok artifacts) :
    ∃ valid prepared compiled, schema.validDocument document .swift = .ok valid ∧
      valid.prepare schema (options.forTarget .swift).addTypename = .ok prepared ∧
      prepared.compile schema (options.forTarget .swift) = .ok compiled ∧
      ∀ operation ∈ compiled.operations, ∃ source fragments, operation.IsFrom prepared source fragments ∧
        Swift.HasString artifacts.source operation operation.joinedText ∧
        ((∀ definition ∈ Definition.operation source :: fragments.map .fragment,
            ∀ leaf ∈ definition.leaves, leaf.IsTogether) →
          (Document.parse operation.joinedText).toOption.map Document.unplaced =
              (Document.parse operation.sourceWithFragments).toOption.map Document.unplaced ∧
            ((∀ definition ∈ Definition.operation source :: fragments.map .fragment,
                ∀ leaf ∈ definition.leaves, leaf.IsLegible) →
              ∃ embedded written, Document.parse operation.joinedText = .ok embedded ∧
                Document.parse operation.sourceWithFragments = .ok written ∧
                embedded.unplaced = written.unplaced)) := by
  obtain ⟨valid, prepared, compiled, isValid, prepares, compiles, written⟩ := Schema.generate_eq_ok done
  have readable := (Schema.readable_validDocument isRead isValid).prepare prepares
  refine ⟨valid, prepared, compiled, isValid, prepares, compiles, fun operation member => ?_⟩
  obtain ⟨source, fragments, isFrom⟩ := prepared.exists_isFrom compiles member
  obtain ⟨before, indent, after, found, value⟩ :=
    Swift.exists_text_of_source written member isFrom.text_ne_empty
  refine ⟨source, fragments, isFrom, ⟨before, indent, after, found, ?_⟩, fun together => ?_⟩
  · rw [value, CompiledOperation.joinedText, String.toList_ofList]
  have seamless := isFrom.seamless readable together
  have joined : Token.Lexes operation.joinedText.toList
      (Token.upToFault ((Definition.operation source :: fragments.map .fragment).flatMap Definition.tokens)) := by
    rw [CompiledOperation.joinedText, String.toList_ofList, Text.flatten_lines seamless.clean]
    exact seamless.joined
  have same := Document.unplaced_parse_congr joined seamless.read
  refine ⟨same, fun legible => ?_⟩
  have ofSources := fun definition member => readable definition (isFrom.mem definition member)
  obtain ⟨embedded, first⟩ := Document.exists_parse (List.cons_ne_nil _ _) ofSources legible joined
  obtain ⟨written, second⟩ := Document.exists_parse (List.cons_ne_nil _ _) ofSources legible seamless.read
  rw [first, second] at same
  exact ⟨embedded, written, first, second, Option.some.inj same⟩

/-- Quotes, a backslash and a blank string are read back. The lines of the string `one\ntwo` become one
    line. -/
theorem operationString_parses_quoting :
    (∃ artifacts compiled operation,
      Quoting.schema.generate (some (.ofOperation Quoting.whole)) .swift {} = .ok artifacts ∧
      (Document.ofOperation Quoting.whole).compile Quoting.schema (Options.forTarget {} .swift) = .ok compiled ∧
      operation ∈ compiled.operations ∧ Swift.HasString artifacts.source operation operation.joinedText ∧
      ∃ embedded written, Document.parse operation.joinedText = .ok embedded ∧
        Document.parse operation.sourceWithFragments = .ok written ∧ embedded.unplaced = written.unplaced) ∧
    ∃ artifacts compiled operation,
      Quoting.schema.generate (some (.ofOperation Quoting.parted)) .swift {} = .ok artifacts ∧
      (Document.ofOperation Quoting.parted).compile Quoting.schema (Options.forTarget {} .swift) = .ok compiled ∧
      operation ∈ compiled.operations ∧ Swift.HasString artifacts.source operation operation.joinedText ∧
      (Document.parse operation.joinedText).toOption.map Document.unplaced ≠
        (Document.parse operation.sourceWithFragments).toOption.map Document.unplaced := by
  have isRead {text : String} {document : Document} (parsed : Document.parse text = .ok document) :
      ∀ given ∈ some document, given.IsRead := by
    rintro _ ⟨⟩ definition member
    exact ⟨text, document, parsed, member⟩
  constructor
  · obtain ⟨artifacts, done⟩ := Quoting.exists_artifacts_whole
    obtain ⟨valid, prepared, compiled, isValid, prepares, compiles, each⟩ :=
      operationString_parses (isRead Quoting.parse_whole) done
    obtain ⟨rfl, operation, member⟩ :=
      Quoting.exists_operation rfl rfl Quoting.run_whole rfl rfl (by decide) isValid prepares compiles
    obtain ⟨source, fragments, isFrom, string, meaning⟩ := each operation member
    obtain ⟨rfl, rfl⟩ := isFrom.eq_of_ofOperation
    refine ⟨artifacts, compiled, operation, done, compiles, member, string, ?_⟩
    have leaves : (Definition.operation Quoting.whole).leaves = [.float (.finite false 5629499534213120 (-51)),
        .string "say \"hi\" \\", .var "y", .string "\n"] := rfl
    simp only [List.map_nil, List.forall_mem_cons, leaves] at meaning
    have together : Value.StaysTogether "say \"hi\" \\" ∧ Value.StaysTogether "\n" := by
      unfold Value.StaysTogether
      decide
    have legible : Token.ofFloat (.finite false 5629499534213120 (-51)) ≠ .malformed := by decide +kernel
    exact (meaning ⟨⟨trivial, together.1, trivial, together.2, nofun⟩, nofun⟩).2
      ⟨⟨legible, trivial, trivial, trivial, nofun⟩, nofun⟩
  · obtain ⟨artifacts, done⟩ := Quoting.exists_artifacts_parted
    obtain ⟨valid, prepared, compiled, isValid, prepares, compiles, each⟩ :=
      operationString_parses (isRead Quoting.parse_parted) done
    obtain ⟨rfl, operation, member⟩ :=
      Quoting.exists_operation rfl rfl Quoting.run_parted rfl rfl (by decide) isValid prepares compiles
    obtain ⟨source, fragments, isFrom, string, _⟩ := each operation member
    obtain ⟨rfl, rfl⟩ := isFrom.eq_of_ofOperation
    refine ⟨artifacts, compiled, operation, done, compiles, member, string, ?_⟩
    rw [CompiledOperation.joinedText, isFrom.text]
    decide +kernel

end QueryTypes
