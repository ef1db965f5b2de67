import QueryTypes.Text.Blank
import QueryTypes.Text.WordCharacter

namespace QueryTypes.Tagged

def upTo (close : Char) : List Char → Option (List Char × List Char)
  | [] => none
  | c :: rest =>
    if c = close then some ([], rest)
    else (upTo close rest).map fun (body, after) => (c :: body, after)

theorem upTo_shorter {close : Char} {text body after : List Char}
    (h : upTo close text = some (body, after)) : after.length < text.length := by
  induction text generalizing body with
  | nil => simp [upTo] at h
  | cons c rest ih =>
    simp only [upTo] at h
    split at h
    · cases h
      simp
    · obtain ⟨⟨inner, last⟩, found, same⟩ := Option.map_eq_some_iff.mp h
      cases same
      have : last.length < rest.length := ih found
      simp only [List.length_cons]
      omega

def quote : Char := '\x60'

/-- The body of the tagged literal that begins here, and the text after the literal. The tag begins
    or ends a word, and only white space stands between it and the literal. -/
def literal? (tag : List Char) (before : Option Char) (text : List Char) :
    Option (List Char × List Char) :=
  if tag.isPrefixOf text && Text.isBoundary before text.head? then
    match (text.drop tag.length).dropWhile Text.isBlank with
    | [] => none
    | c :: rest => if c = quote then upTo quote rest else none
  else none

theorem literal?_shorter {tag text body after : List Char} {before : Option Char}
    (h : literal? tag before text = some (body, after)) : after.length < text.length := by
  unfold literal? at h
  split at h
  · split at h
    · cases h
    · next rest shape =>
      split at h
      · have shorter := upTo_shorter h
        have short := (List.dropWhile_sublist Text.isBlank (l := text.drop tag.length)).length_le
        rw [shape] at short
        simp only [List.length_cons, List.length_drop] at short
        omega
      · cases h
  · cases h

def bodies (tag : List Char) (before : Option Char) (text : List Char) : List (List Char) :=
  match text with
  | [] => []
  | c :: rest =>
    match _h : literal? tag before (c :: rest) with
    | some (body, after) => body :: bodies tag (some quote) after
    | none => bodies tag (some c) rest
termination_by text.length
decreasing_by
  · exact literal?_shorter _h
  · simp

/-- A body without its interpolations. Each ends with the first closing brace after its start. -/
def withoutInterpolations (text : List Char) : List Char :=
  match text with
  | [] => []
  | c :: rest =>
    match _h : (if ['$', '\x7b'].isPrefixOf (c :: rest) then upTo '\x7d' rest else none) with
    | some (_, after) => withoutInterpolations after
    | none => c :: withoutInterpolations rest
termination_by text.length
decreasing_by
  · split at _h
    · have := upTo_shorter _h
      simp only [List.length_cons]
      omega
    · cases _h
  · simp

end QueryTypes.Tagged

namespace QueryTypes

def taggedText (tag contents : String) : Option String :=
  match Tagged.bodies tag.toList none contents.toList with
  | [] => none
  | found =>
    some ("\n".intercalate (found.map fun body =>
      String.ofList (Tagged.withoutInterpolations body)))

end QueryTypes
