import QueryTypes.Binary64

namespace QueryTypes

/-- An argument or default value. The entries of an object are in the order of their keys, and no
    key occurs twice. -/
inductive Value where
  | var (name : String)
  | null
  | boolean (value : Bool)
  | int (value : Int)
  | float (value : Binary64)
  | string (value : String)
  | enum (name : String)
  | list (elements : List Value)
  | object (entries : List (String × Value))
  deriving Repr, Inhabited

namespace Value

mutual
def decEq : (a b : Value) → Decidable (a = b)
  | .var a, .var b => if h : a = b then isTrue (by rw [h]) else isFalse (by simpa using h)
  | .null, .null => isTrue rfl
  | .boolean a, .boolean b => if h : a = b then isTrue (by rw [h]) else isFalse (by simpa using h)
  | .int a, .int b => if h : a = b then isTrue (by rw [h]) else isFalse (by simpa using h)
  | .float a, .float b => if h : a = b then isTrue (by rw [h]) else isFalse (by simpa using h)
  | .string a, .string b => if h : a = b then isTrue (by rw [h]) else isFalse (by simpa using h)
  | .enum a, .enum b => if h : a = b then isTrue (by rw [h]) else isFalse (by simpa using h)
  | .list a, .list b =>
    match decEqList a b with
    | isTrue h => isTrue (by rw [h])
    | isFalse h => isFalse (by simpa using h)
  | .object a, .object b =>
    match decEqEntries a b with
    | isTrue h => isTrue (by rw [h])
    | isFalse h => isFalse (by simpa using h)
  | .var _, .null | .var _, .boolean _ | .var _, .int _ | .var _, .float _ | .var _, .string _
  | .var _, .enum _ | .var _, .list _ | .var _, .object _ => isFalse nofun
  | .null, .var _ | .null, .boolean _ | .null, .int _ | .null, .float _ | .null, .string _
  | .null, .enum _ | .null, .list _ | .null, .object _ => isFalse nofun
  | .boolean _, .var _ | .boolean _, .null | .boolean _, .int _ | .boolean _, .float _
  | .boolean _, .string _ | .boolean _, .enum _ | .boolean _, .list _
  | .boolean _, .object _ => isFalse nofun
  | .int _, .var _ | .int _, .null | .int _, .boolean _ | .int _, .float _ | .int _, .string _
  | .int _, .enum _ | .int _, .list _ | .int _, .object _ => isFalse nofun
  | .float _, .var _ | .float _, .null | .float _, .boolean _ | .float _, .int _
  | .float _, .string _ | .float _, .enum _ | .float _, .list _
  | .float _, .object _ => isFalse nofun
  | .string _, .var _ | .string _, .null | .string _, .boolean _ | .string _, .int _
  | .string _, .float _ | .string _, .enum _ | .string _, .list _
  | .string _, .object _ => isFalse nofun
  | .enum _, .var _ | .enum _, .null | .enum _, .boolean _ | .enum _, .int _ | .enum _, .float _
  | .enum _, .string _ | .enum _, .list _ | .enum _, .object _ => isFalse nofun
  | .list _, .var _ | .list _, .null | .list _, .boolean _ | .list _, .int _ | .list _, .float _
  | .list _, .string _ | .list _, .enum _ | .list _, .object _ => isFalse nofun
  | .object _, .var _ | .object _, .null | .object _, .boolean _ | .object _, .int _
  | .object _, .float _ | .object _, .string _ | .object _, .enum _
  | .object _, .list _ => isFalse nofun

def decEqList : (a b : List Value) → Decidable (a = b)
  | [], [] => isTrue rfl
  | a :: as, b :: bs =>
    match decEq a b, decEqList as bs with
    | isTrue h, isTrue hs => isTrue (by rw [h, hs])
    | isFalse h, _ => isFalse (by simp [h])
    | _, isFalse hs => isFalse (by simp [hs])
  | [], _ :: _ | _ :: _, [] => isFalse nofun

def decEqEntries : (a b : List (String × Value)) → Decidable (a = b)
  | [], [] => isTrue rfl
  | (k, a) :: as, (l, b) :: bs =>
    match decEq a b, decEqEntries as bs with
    | isTrue h, isTrue hs =>
      if hk : k = l then isTrue (by rw [h, hs, hk]) else isFalse (by simp [hk])
    | isFalse h, _ => isFalse (by simp [h])
    | _, isFalse hs => isFalse (by simp [hs])
  | [], _ :: _ | _ :: _, [] => isFalse nofun
end

instance : DecidableEq Value := decEq

/-- Puts an entry at the place of its key. A later entry replaces an earlier one of the same key. -/
def insertEntry (key : String) (value : Value) : List (String × Value) → List (String × Value)
  | [] => [(key, value)]
  | (k, v) :: rest =>
    if key < k then (key, value) :: (k, v) :: rest
    else if key = k then (key, value) :: rest
    else (k, v) :: insertEntry key value rest

def ofEntries (entries : List (String × Value)) : Value :=
  .object (entries.foldl (fun sorted (key, value) => insertEntry key value sorted) [])

end Value

end QueryTypes
