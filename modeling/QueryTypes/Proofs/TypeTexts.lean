import QueryTypes.Proofs.Nesting
import QueryTypes.Proofs.OperationText

namespace QueryTypes

namespace TypeRef

variable {type : TypeRef}

/-- With the base name alone as with the whole text, what has a name is not non-null twice. -/
theorem exists_name_iff (type : TypeRef) (base : Bool) :
    (∃ text, type.name base = .ok text) ↔ type.hasDoubleNonNull = false :=
  ⟨fun ⟨_, found⟩ => single_of_name found, fun single => ⟨_, name_eq_ok single base⟩⟩

section Text

variable (isName : isName type.baseName = true)

include isName

theorem lexes_toText : Token.Lexes type.toText.toList type.tokens := by
  have lexes := (prints isName).spells [] [] (by simp [Token.Boundary]) .nil
  rwa [List.append_nil, List.append_nil] at lexes

theorem height_le_deepest : type.height ≤ Token.deepest 0 type.toText.toList := by
  have rises := (prints isName).rises 0 []
  rwa [List.append_nil, Nat.zero_add] at rises

/-- The grammar does not get past more open brackets than it is allowed. -/
theorem deepest_le_of_parse {other : TypeRef} {depth : Nat} (parsed : (rule depth).parse type.toText = .ok other) :
    Token.deepest 0 type.toText.toList ≤ depth := by
  have bound := (climbs_rule depth (Nat.le_of_eq (Nat.zero_add depth))).of_parse parsed
  rwa [Rule.peak, lexes_toText isName .start, ← (prints isName).brackets, Token.deepest_filter] at bound

theorem parse_toText_eq_ok_iff (single : type.hasDoubleNonNull = false) {depth : Nat} {other : TypeRef} :
    (rule depth).parse type.toText = .ok other ↔ other = type ∧ Token.deepest 0 type.toText.toList ≤ depth := by
  have reads : (rule depth).Reads (type.height ≤ depth) (type.tokens ++ []) [] (· = type) :=
    reads_rule type single depth id [] (by simp)
  rw [List.append_nil] at reads
  obtain ⟨sound, complete⟩ := reads.of_parse (lexes_toText isName)
  constructor
  · intro parsed
    exact ⟨sound other parsed, deepest_le_of_parse isName parsed⟩
  · rintro ⟨rfl, fits⟩
    obtain ⟨read, parsed⟩ := complete (Nat.le_trans (height_le_deepest isName) fits)
    rwa [sound read parsed] at parsed

end Text

end TypeRef

/-- A type whose base name is a name has a text, and a base name, exactly if it is nowhere non-null
    twice. The text is then its written form. The grammar of types reads that form exactly if it allows
    as many open brackets as there are at once, and as no other type. -/
theorem typeText_meaning {type : TypeRef} (isName : isName type.baseName = true) :
    (∀ base, (∃ text, type.name base = .ok text) ↔ type.hasDoubleNonNull = false) ∧
      (type.hasDoubleNonNull = false →
        type.name false = .ok type.toText ∧ type.name true = .ok type.baseName ∧
          ∀ depth other, (TypeRef.rule depth).parse type.toText = .ok other ↔
            other = type ∧ Token.deepest 0 type.toText.toList ≤ depth) := by
  refine ⟨type.exists_name_iff, fun single => ?_⟩
  refine ⟨TypeRef.name_eq_ok single false, TypeRef.name_eq_ok single true, fun depth other => ?_⟩
  exact TypeRef.parse_toText_eq_ok_iff isName single

namespace Nested

def rows : TypeRef := .nonNull (.list (.list (.nonNull (.named "Int"))))

end Nested

/-- The rows are read with two brackets and not with one, and a list of what is non-null twice has
    neither a text nor a base name. -/
theorem typeText_meaning_rows :
    Nested.rows.name false = .ok "[[Int!]]!" ∧ Nested.rows.name true = .ok "Int" ∧
      (TypeRef.rule Token.nestingLimit).parse "[[Int!]]!" = .ok Nested.rows ∧
      (¬∃ other, (TypeRef.rule 1).parse "[[Int!]]!" = .ok other) ∧
      ∀ base, ¬∃ text, (TypeRef.list (.nonNull Nested.rows)).name base = .ok text := by
  have ofRows : isName Nested.rows.baseName = true := by decide
  have ofDouble : isName (TypeRef.list (.nonNull Nested.rows)).baseName = true := by decide
  obtain ⟨whole, base, read⟩ := (typeText_meaning ofRows).2 rfl
  have text : Nested.rows.toText = "[[Int!]]!" := by decide
  rw [text] at whole read
  refine ⟨whole, base, (read _ _).mpr ⟨rfl, by decide⟩, ?_, fun base named => ?_⟩
  · rintro ⟨other, parsed⟩
    exact absurd ((read _ _).mp parsed).2 (by decide)
  · cases ((typeText_meaning ofDouble).1 base).mp named

end QueryTypes
