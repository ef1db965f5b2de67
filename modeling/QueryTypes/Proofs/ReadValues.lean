import QueryTypes.Document.Rule
import QueryTypes.Proofs.Reading

namespace QueryTypes

open Rule (Ensures)

/-- A value that could have been read with at most `depth` further brackets. A constant has no variables. -/
inductive Value.Readable (constant : Bool) : Nat → Value → Prop where
  | var {depth : Nat} {name : String} (isName : isName name = true) (free : constant = false) :
    Readable constant depth (.var name)
  | null {depth : Nat} : Readable constant depth .null
  | boolean {depth : Nat} {value : Bool} : Readable constant depth (.boolean value)
  | int {depth : Nat} {value : Int} (fits : Token.leastInt ≤ value ∧ value ≤ Token.greatestInt) :
    Readable constant depth (.int value)
  | float {depth : Nat} {value : Binary64} : Readable constant depth (.float value)
  | string {depth : Nat} {value : String} : Readable constant depth (.string value)
  | enum {depth : Nat} {name : String} (isName : isName name = true) : Readable constant depth (.enum name)
  | list {depth : Nat} {elements : List Value} (each : ∀ element ∈ elements, Readable constant depth element) :
    Readable constant (depth + 1) (.list elements)
  | object {depth : Nat} {entries : List (String × Value)} (keys : ∀ entry ∈ entries, isName entry.1 = true)
    (each : ∀ entry ∈ entries, Readable constant depth entry.2) : Readable constant (depth + 1) (.object entries)

/-- An argument that could have been read where at most `depth` brackets may follow, its parenthesis
    included. -/
def Argument.Readable : Nat → Argument → Prop
  | 0, _ => False
  | depth + 1, argument => isName argument.name = true ∧ argument.value.Readable false depth

structure Directive.Readable (depth : Nat) (directive : Directive) : Prop where
  isName : isName directive.name = true
  arguments : ∀ argument ∈ directive.arguments, argument.Readable depth

namespace Value

theorem ensures_simple (constant : Bool) (depth : Nat) : (simple constant).Ensures (Readable constant depth) := by
  refine (Rule.ensures_nextIs _).andThen fun isNext => ?_
  split
  · rename_i isVariable
    have free : constant = false := by
      rw [Bool.and_eq_true, Bool.not_eq_true'] at isVariable
      exact isVariable.1
    exact (Rule.ensures_mark '$').andThen fun _ => Rule.ensures_name.bind fun _ isName => .pure (.var isName free)
  · refine Rule.ensures_take fun token value formed read => ?_
    split at read
    all_goals cases read
    · exact .int formed
    · exact .float
    · exact .string
    · exact .boolean
    · exact .boolean
    · exact .null
    · exact .enum formed

theorem mem_insertEntry {key : String} {value : Value} {entries : List (String × Value)} {entry : String × Value}
    (member : entry ∈ insertEntry key value entries) : entry = (key, value) ∨ entry ∈ entries := by
  induction entries with
  | nil => exact .inl (List.mem_singleton.mp member)
  | cons first rest ih =>
    unfold insertEntry at member
    split at member
    · exact List.mem_cons.mp member
    split at member
    · rcases List.mem_cons.mp member with isNew | isOld
      · exact .inl isNew
      · exact .inr (List.mem_cons_of_mem _ isOld)
    · rcases List.mem_cons.mp member with isFirst | inRest
      · exact .inr (List.mem_cons.mpr (.inl isFirst))
      · exact (ih inRest).imp_right (List.mem_cons_of_mem _)

theorem mem_sorted {entries sorted : List (String × Value)} {entry : String × Value}
    (member : entry ∈ entries.foldl (fun sorted (key, value) => insertEntry key value sorted) sorted) :
    entry ∈ entries ∨ entry ∈ sorted := by
  induction entries generalizing sorted with
  | nil => exact .inr member
  | cons first rest ih =>
    rcases ih member with inRest | inSorted
    · exact .inl (List.mem_cons_of_mem _ inRest)
    · rcases mem_insertEntry inSorted with rfl | isOld
      · exact .inl List.mem_cons_self
      · exact .inr isOld

theorem readable_ofEntries {constant : Bool} {depth : Nat} {entries : List (String × Value)}
    (each : ∀ entry ∈ entries, isName entry.1 = true ∧ entry.2.Readable constant depth) :
    (ofEntries entries).Readable constant (depth + 1) := by
  have listed (entry : String × Value) (member : entry ∈ entries.foldl
      (fun sorted (key, value) => insertEntry key value sorted) []) : entry ∈ entries :=
    (mem_sorted member).resolve_right List.not_mem_nil
  exact .object (fun entry member => (each entry (listed entry member)).1) fun entry member =>
    (each entry (listed entry member)).2

theorem ensures_rule (constant : Bool) (depth : Nat) : (rule constant depth).Ensures (Readable constant depth) := by
  induction depth with
  | zero => exact ensures_simple constant 0
  | succ depth ih =>
    refine (Rule.ensures_nextIs _).andThen fun _ => .of_branches ?_ ?_
    · refine (Rule.ensures_mark '[').andThen fun _ => (Rule.ensures_zeroOrMore ']' ih).bind fun _ each => ?_
      exact (Rule.ensures_mark ']').andThen fun _ => .pure (.list each)
    refine (Rule.ensures_nextIs _).andThen fun _ => .of_branches ?_ (ensures_simple constant _)
    have entry : (do
        let key ← Rule.name
        Rule.mark ':'
        return (key, ← rule constant depth) : Rule (String × Value)).Ensures
          fun entry => isName entry.1 = true ∧ entry.2.Readable constant depth :=
      Rule.ensures_name.bind fun _ isName => (Rule.ensures_mark ':').andThen fun _ =>
        ih.bind fun _ readable => .pure ⟨isName, readable⟩
    refine (Rule.ensures_mark '{').andThen fun _ => (Rule.ensures_zeroOrMore '}' entry).bind fun _ each => ?_
    exact (Rule.ensures_mark '}').andThen fun _ => .pure (readable_ofEntries each)

end Value

theorem Argument.ensures_rules (depth : Nat) :
    (rules depth).Ensures fun arguments => ∀ argument ∈ arguments, argument.Readable depth := by
  cases depth with
  | zero => exact .pure nofun
  | succ depth =>
    refine (Rule.ensures_nextIs _).andThen fun _ => .of_branches ?_ (.pure nofun)
    have argument : (do
        let name ← Rule.name
        Rule.mark ':'
        return ⟨name, ← Value.rule false depth⟩ : Rule Argument).Ensures (Readable (depth + 1)) :=
      Rule.ensures_name.bind fun _ isName => (Rule.ensures_mark ':').andThen fun _ =>
        (Value.ensures_rule false depth).bind fun _ readable => .pure ⟨isName, readable⟩
    refine (Rule.ensures_mark '(').andThen fun _ => (Rule.ensures_oneOrMore ')' argument).bind fun _ each => ?_
    exact (Rule.ensures_mark ')').andThen fun _ => .pure each.2

theorem Directive.ensures_rules (depth : Nat) :
    (rules depth).Ensures fun directives => ∀ directive ∈ directives, directive.Readable depth := by
  have directive : (do
      let position ← Rule.position
      Rule.mark '@'
      let name ← Rule.name
      return ⟨position, name, ← Argument.rules depth⟩ : Rule Directive).Ensures (Readable depth) :=
    Rule.ensures_position.andThen fun _ => (Rule.ensures_mark '@').andThen fun _ =>
      Rule.ensures_name.bind fun _ isName => (Argument.ensures_rules depth).bind fun _ each =>
        .pure ⟨isName, each⟩
  exact Rule.ensures_repeatWhile directive

end QueryTypes
