import QueryTypes.Proofs.CodeLines
import QueryTypes.Proofs.Undescribed

namespace QueryTypes

open Writer

namespace MemberType

mutual
def uncommented : MemberType → MemberType
  | .literals texts => .literals texts
  | .named around alternatives => .named around alternatives
  | .object around members => .object around (uncommentedAll members)

def uncommentedOf : Member MemberType → Member MemberType
  | ⟨_, name, isOptional, type⟩ => ⟨[], name, isOptional, uncommented type⟩

def uncommentedAll : List (Member MemberType) → List (Member MemberType)
  | [] => []
  | member :: rest => uncommentedOf member :: uncommentedAll rest
end

mutual
def comments : MemberType → List String
  | .literals _ | .named .. => []
  | .object _ members => commentsAll members

def commentsOf : Member MemberType → List String
  | ⟨comments, _, _, type⟩ => comments ++ MemberType.comments type

def commentsAll : List (Member MemberType) → List String
  | [] => []
  | member :: rest => commentsOf member ++ commentsAll rest
end

end MemberType

namespace Declaration

def uncommented : Declaration → Declaration
  | .record name _ members => .record name [] (MemberType.uncommentedAll members)
  | .enum name _ values => .enum name [] (values.map fun value => (none, value.2))
  | .union name alternatives => .union name alternatives
  | .methods name entries => .methods name entries

def comments : Declaration → List String
  | .record _ comments members => comments ++ MemberType.commentsAll members
  | .enum _ comments values => comments ++ values.flatMap fun value => value.1.toList
  | .union .. | .methods .. => []

theorem isMark_slashes : IsMark "// " := ⟨[' '], by decide, by decide⟩

mutual
theorem aligned_writeMember : (member : Member MemberType) →
    Aligned (strayCount (MemberType.commentsOf member)) (writeMember · member)
      (writeMember · (MemberType.uncommentedOf member))
  | ⟨comments, name, isOptional, type⟩ => by
    have visible : name ++ (if isOptional then "?" else "") ++ ": " ≠ "" := by simp
    have whole := ((resumes_writeTyped visible type).commented isMark_slashes comments).aligned
    rw [MemberType.commentsOf, strayCount_append]
    exact whole

theorem resumes_writeTyped {label : String} (visible : label ≠ "") : (type : MemberType) →
    Resumes (strayCount type.comments) (writeTyped · label type) (writeTyped · label type.uncommented)
  | .literals texts => resumes_onNewline (by simp)
  | .named around alternatives => resumes_onNewline (by simp)
  | .object around members => by
    have opened : Resumes 0 (·.onNewline (label ++ around.opening)) (·.onNewline (label ++ around.opening)) :=
      resumes_onNewline (by simp [visible])
    have inside := (aligned_writeMembers members).enclosed "\x7b" "\x7d"
    have whole := (opened.andThen inside).andThen (aligned_print (around.closing ++ ","))
    rw [Nat.zero_add, Nat.add_zero] at whole
    exact whole

theorem aligned_writeMembers : (members : List (Member MemberType)) →
    Aligned (strayCount (MemberType.commentsAll members)) (writeMembers · members)
      (writeMembers · (MemberType.uncommentedAll members))
  | [] => aligned_self
  | member :: rest => by
    have whole := (aligned_writeMember member).andThen (aligned_writeMembers rest)
    rw [MemberType.commentsAll, strayCount_append]
    exact whole
end

theorem shows_comments (comments : List String) {more : Nat} {w plain : Writer} (ahead : RunsAhead more w plain) :
    Shows (more + strayCount comments)
      (w.newline.each comments fun w line => (w.print ("// " ++ line)).newline) plain.newline := by
  induction comments generalizing more w with
  | nil => exact ahead.newline
  | cons comment rest ih =>
    have unindented : w.newline.print ("// " ++ comment) =
        (w.newline.print (spaces 0)).print ("// " ++ comment) := by
      simp [Writer.print, spaces]
    have added := ahead.comment isMark_slashes 0 comment
    rw [← unindented] at added
    rw [strayCount_cons, ← Nat.add_assoc]
    exact ih added

theorem aligned_start (comments : List String) : Aligned (strayCount comments) (start · comments) (start · []) :=
  fun more w plain shows => shows_comments comments (aligned_newlineIfNeeded more w plain shows).runsAhead

theorem aligned_writeValues (values : List (Option String × String)) :
    Aligned (strayCount (values.flatMap fun value => value.1.toList)) (writeValues · values)
      (writeValues · (values.map fun value => (none, value.2))) := by
  induction values with
  | nil => exact aligned_self
  | cons entry rest ih =>
    obtain ⟨comment, value⟩ := entry
    let last := "\"" ++ value ++ "\"" ++ if rest.isEmpty then ";" else " |"
    have visible : last ≠ "" := by simp [last]
    have first := ((resumes_onNewline visible).commented isMark_slashes comment.toList).aligned
    have whole := first.andThen ih
    rw [List.flatMap_cons, strayCount_append]
    simp only [List.map_cons, writeValues, List.isEmpty_map]
    exact whole

theorem aligned_writeMethod (entry : Method) : Aligned 0 (writeMethod · entry) (writeMethod · entry) :=
  aligned_onNewline _

theorem aligned_write (dialect : Dialect) (declaration : Declaration) :
    Aligned (strayCount declaration.comments) (write dialect · declaration)
      (write dialect · declaration.uncommented) := by
  cases declaration with
  | record name comments members =>
    have inside := (aligned_writeMembers members).enclosed dialect.body.opening dialect.body.closing
    have whole := ((aligned_start comments).andThen (aligned_print (dialect.head.write name))).andThen inside
    rw [Declaration.comments, strayCount_append]
    exact whole
  | enum name comments values =>
    have opened := (aligned_start comments).andThen (aligned_print ("export type " ++ name ++ " ="))
    rw [Declaration.comments, strayCount_append]
    simp only [write, uncommented, List.isEmpty_map]
    cases values with
    | nil => exact opened.andThen (aligned_print (" " ++ dialect.noValues ++ ";"))
    | cons value rest => exact opened.andThen (aligned_writeValues (value :: rest)).indented
  | union name alternatives => exact (aligned_start []).andThen (aligned_print _)
  | methods name entries =>
    have inside := (aligned_each aligned_writeMethod entries).block
    exact ((aligned_start []).andThen (aligned_print ("export interface " ++ name))).andThen inside

/-- A source has the lines of code of its declarations without comments, and the lines that leave these. -/
theorem extends_source (dialect : Dialect) (begun : dialect.banner ≠ "") (declarations : List Declaration) :
    Extends (strayCount (declarations.flatMap comments)) (codeLines (source dialect declarations))
      (codeLines (source dialect (declarations.map uncommented))) := by
  have opened : (Writer.print {} dialect.banner).output ≠ "" := by simpa [Writer.print] using begun
  have header : generatedHeader ≠ "" := by decide
  have aligned := Aligned.each declarations fun declaration _ => aligned_write dialect declaration
  exact aligned.extends_output ((RunsAhead.refl opened).onNewline header)

end Declaration

namespace Swift

def Property.uncommented (property : Property) : Property := { property with comment := none }

namespace Nested

mutual
def uncommented : Nested → Nested
  | .struct name properties inner => .struct name (properties.map Property.uncommented) (uncommentedAll inner)
  | .choice name variants inner => .choice name variants (uncommentedAll inner)

def uncommentedAll : List Nested → List Nested
  | [] => []
  | type :: rest => uncommented type :: uncommentedAll rest
end

mutual
def comments : Nested → List String
  | .struct _ properties inner => properties.flatMap (·.comment.toList) ++ commentsAll inner
  | .choice _ _ inner => commentsAll inner

def commentsAll : List Nested → List String
  | [] => []
  | type :: rest => comments type ++ commentsAll rest
end

end Nested

namespace Item

def uncommented : Item → Item
  | .operation name kind text parameters data => .operation name kind text parameters data.uncommented
  | .enum name _ values => .enum name none (values.map EnumValue.undescribed)
  | .input name parameters => .input name parameters

def comments : Item → List String
  | .operation _ _ _ _ data => data.comments
  | .enum _ comment values => comment.toList ++ values.flatMap fun value => (value.description.map trim).toList
  | .input .. => []

end Item

theorem isMark_documentation : IsMark "/// " := ⟨['/', ' '], by decide, by decide⟩

theorem aligned_documented (comment : Option String) {text : String} (visible : text ≠ "") :
    Aligned (strayCount comment.toList) (fun w => (writeComment w comment).onNewline text)
      (fun w => (writeComment w none).onNewline text) :=
  ((resumes_onNewline visible).commented isMark_documentation comment.toList).aligned

theorem aligned_writeProperty (property : Property) :
    Aligned (strayCount property.comment.toList) (writeProperty · property)
      (writeProperty · property.uncommented) :=
  aligned_documented property.comment (by simp)

theorem aligned_writeDecodings (properties : List Property) :
    Aligned 0 (·.each properties writeDecoding) (·.each (properties.map Property.uncommented) writeDecoding) := by
  have each (property : Property) : Aligned (strayCount []) (writeDecoding · property)
      (writeDecoding · property.uncommented) := aligned_onNewline _
  have whole := Aligned.each properties fun property _ => each property
  rw [List.flatMap_eq_nil_iff.mpr (by simp)] at whole
  exact whole

theorem aligned_writeArm (arm : Arm) : Aligned 0 (writeArm · arm) (writeArm · arm) :=
  (aligned_onNewline _).andThen (aligned_onNewline _).indented

theorem aligned_writeSwitch (variants : List Variant) :
    Aligned 0 (writeSwitch · variants) (writeSwitch · variants) :=
  (((aligned_onNewline _).andThen (aligned_onNewline _)).andThen
    (aligned_each aligned_writeArm (arms variants))).andThen (aligned_onNewline _)

theorem aligned_heading (text : String) :
    Aligned 0 (fun w => w.newlineIfNeeded.onNewline text) (fun w => w.newlineIfNeeded.onNewline text) :=
  aligned_newlineIfNeeded.andThen (aligned_onNewline text)

mutual
theorem aligned_writeNested : (type : Nested) →
    Aligned (strayCount type.comments) (writeNested · type) (writeNested · type.uncommented)
  | .struct name properties inner => by
    have listed := Aligned.each properties fun property _ => aligned_writeProperty property
    have decoded := (aligned_heading "public init(map: GraphQLMap) throws").andThen
      (aligned_writeDecodings properties).block
    have body := (listed.andThen decoded).andThen (aligned_writeAll inner)
    have whole := (aligned_heading ("public struct " ++ name ++ ": GraphQLMapConvertible")).andThen body.block
    rw [Nested.comments, strayCount_append]
    simp only [Nested.uncommented, writeNested]
    exact whole.of_eq (by omega)
  | .choice name variants inner => by
    have listed := aligned_onNewlines (variants.map fun v => "case " ++ v.caseName ++ "(" ++ v.structName ++ ")")
    have decoded := (aligned_heading "public init(map: GraphQLMap) throws").andThen (aligned_writeSwitch variants).block
    have body := (listed.andThen decoded).andThen (aligned_writeAll inner)
    have whole := (aligned_heading ("public enum " ++ name ++ ": GraphQLMapConvertible")).andThen body.block
    rw [Nested.comments]
    simp only [Nested.uncommented, writeNested]
    exact whole.of_eq (by omega)

theorem aligned_writeAll : (types : List Nested) →
    Aligned (strayCount (Nested.commentsAll types)) (writeAll · types) (writeAll · (Nested.uncommentedAll types))
  | [] => aligned_self
  | type :: rest => by
    have whole := (aligned_writeNested type).andThen (aligned_writeAll rest)
    rw [Nested.commentsAll, strayCount_append]
    exact whole
end

theorem aligned_writeText (text : List String) : Aligned 0 (writeText · text) (writeText · text) := by
  induction text with
  | nil => exact aligned_self
  | cons line rest ih =>
    simp only [writeText]
    exact (aligned_onNewline (literal line ++ if rest.isEmpty then "" else " +")).andThen ih

theorem aligned_unless (skip : Bool) {write : Writer → Writer} (aligned : Aligned 0 write write) :
    Aligned 0 (fun w => if skip then w else write w) (fun w => if skip then w else write w) := by
  cases skip with
  | true => exact aligned_self
  | false => exact aligned

theorem aligned_writeOperation (text : List String) (parameters : List Parameter) (data : Nested) :
    Aligned (strayCount data.comments) (writeOperation · text parameters data)
      (writeOperation · text parameters data.uncommented) := by
  have written := (aligned_onNewline "public static let operationString =").andThen (aligned_writeText text).indented
  have stored := (aligned_unless parameters.isEmpty aligned_newlineIfNeeded).andThen
    (aligned_onNewlines (parameters.map fun p => "public let " ++ p.name ++ ": " ++ p.type))
  have assigned := aligned_onNewlines (parameters.map fun p => "self." ++ p.name ++ " = " ++ p.name)
  have initialized := (aligned_heading ("public init(" ++ parameterList parameters ++ ")")).andThen assigned.block
  have listed := (aligned_heading "public var variables: GraphQLMap?").andThen
    (aligned_onNewline ("return " ++ dictionary parameters)).block
  have whole := (((written.andThen stored).andThen initialized).andThen
    (aligned_unless parameters.isEmpty listed)).andThen (aligned_writeNested data)
  exact whole.of_eq (Nat.zero_add _)

def writeValue (w : Writer) (value : EnumValue) : Writer :=
  (writeComment w (value.description.map trim)).onNewline
    ("case " ++ identifier (lowerCamel value.name) ++ " = \"" ++ value.name ++ "\"")

theorem aligned_writeValue (value : EnumValue) :
    Aligned (strayCount (value.description.map trim).toList) (writeValue · value)
      (writeValue · value.undescribed) :=
  aligned_documented (value.description.map trim) (by simp)

theorem aligned_writeEnum (name : String) (comment : Option String) (values : List EnumValue) :
    Aligned (strayCount (Item.enum name comment values).comments) (writeEnum · name comment values)
      (writeEnum · name none (values.map EnumValue.undescribed)) := by
  have headed := aligned_newlineIfNeeded.andThen
    (aligned_documented comment (by simp : "public enum " ++ name ++ ": String" ≠ ""))
  have cases := Aligned.each values fun value _ => aligned_writeValue value
  have whole := (headed.andThen cases.block).andThen
    (aligned_heading ("extension " ++ name ++ ": JSONDecodable, JSONEncodable \x7b\x7d"))
  rw [Item.comments, strayCount_append]
  exact whole.of_eq (by omega)

theorem aligned_writeInput (name : String) (parameters : List Parameter) :
    Aligned 0 (writeInput · name parameters) (writeInput · name parameters) := by
  have map := aligned_onNewline ("graphQLMap = " ++ if parameters.isEmpty then "[:]" else dictionary parameters)
  have initialized := ((aligned_onNewline "public var graphQLMap: GraphQLMap").andThen
    (aligned_heading ("public init(" ++ parameterList parameters ++ ")"))).andThen map.block
  exact (aligned_heading ("public struct " ++ name ++ ": GraphQLMapEncodable")).andThen initialized.block

theorem aligned_writeItem (item : Item) :
    Aligned (strayCount item.comments) (writeItem · item) (writeItem · item.uncommented) := by
  cases item with
  | operation name kind text parameters data =>
    have body := (aligned_writeOperation text parameters data).block
    have whole := (aligned_heading ("public final class " ++ name ++ ": GraphQL" ++ kind.suffix)).andThen body
    rw [Nat.zero_add] at whole
    exact whole
  | enum name comment values => exact aligned_writeEnum name comment values
  | input name parameters => exact aligned_writeInput name parameters

theorem extends_items (items : List Item) {w : Writer} (begun : w.output ≠ "") :
    Extends (strayCount (items.flatMap Item.comments))
      (codeLines ((w.onNewline "import Apollo").each items writeItem).newline.output)
      (codeLines ((w.onNewline "import Apollo").each (items.map Item.uncommented) writeItem).newline.output) := by
  have aligned := Aligned.each items fun item _ => aligned_writeItem item
  exact aligned.extends_output ((RunsAhead.refl begun).onNewline (by decide))

end Swift

end QueryTypes
