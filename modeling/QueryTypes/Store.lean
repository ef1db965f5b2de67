import QueryTypes.Ordered

namespace QueryTypes

inductive Node where
  | directory
  | text (contents : String)
  | binary (bytes : List UInt8)
  deriving DecidableEq, Repr

def Node.ofBytes (bytes : ByteArray) : Node :=
  match String.fromUTF8? bytes with
  | some contents => .text contents
  | none => .binary bytes.toList

abbrev Place := List String

/-- Files and directories by their places. The working directory itself is always there. -/
structure Store where
  /-- An entry hides those for the same place after it. -/
  entries : List (Place × Node) := []
  deriving DecidableEq, Repr, Inhabited

def pathParts (path : String) : List String := (path.toList.splitOn '/').map String.ofList

def isFileName (part : String) : Bool :=
  part != "" && part != "." && part != ".." && part.utf8ByteSize ≤ 255 &&
    !part.toList.contains '\x00'

namespace Store

def node? (store : Store) (place : Place) : Option Node :=
  if place = [] then some .directory else store.entries.lookup place

def put (store : Store) (place : Place) (node : Node) : Store :=
  ⟨(place, node) :: store.entries⟩

def add (store : Store) (path : String) (node : Node) : Store :=
  let place := (pathParts path).filter isFileName
  let above := (List.range place.length).tail.map place.take
  (above.foldl (fun store place => store.put place .directory) store).put place node

/-- One part of a path leads from a directory to a place in it, to the directory itself or to the
    one above. Nothing is above the working directory. -/
def step (store : Store) (here : Place) (part : String) : Option Place :=
  if store.node? here = some .directory then
    if part = "" ∨ part = "." then some here
    else if part = ".." then if here = [] then none else some here.dropLast
    else some (here ++ [part])
  else none

def walk (store : Store) (parts : List String) : Option Place := parts.foldlM store.step []

/-- A path from the root of all files leads nowhere. -/
def find (store : Store) (path : String) : Option Place :=
  if path.startsWith "/" then none else store.walk (pathParts path)

def read (store : Store) (path : String) : Option String := do
  match ← store.node? (← store.find path) with
  | .text contents => some contents
  | _ => none

/-- Whether a file can be prepared beside the end of a path: its directory is there. -/
def canStage (store : Store) (path : String) : Bool :=
  let parts := (pathParts path).filter fun part => part != "" && part != "."
  !path.startsWith "/" && ((store.walk parts.dropLast).bind store.node? == some .directory)

/-- A prepared file takes its place, unless the path names none or a directory is there. -/
def persist (store : Store) (path contents : String) : Option Store := do
  let place ← store.find path
  if (pathParts path).getLast?.any isFileName && store.node? place != some .directory then
    some (store.put place (.text contents))
  else none

def changes (before after : Store) : List (String × String) :=
  (distinct (after.entries.map Prod.fst)).filterMap fun place =>
    match after.node? place with
    | some (.text contents) =>
      if before.node? place = some (.text contents) then none
      else some ("/".intercalate place, contents)
    | _ => none

theorem node?_put (store : Store) (place other : Place) (node : Node) (h : place ≠ []) :
    (store.put place node).node? other =
      if other = place then some node else store.node? other := by
  by_cases top : other = []
  · subst top
    simp [node?, Ne.symm h]
  · by_cases same : other = place
    · subst same
      simp [node?, put, h]
    · have differ : (other == place) = false := by simpa using same
      simp [node?, put, top, same, List.lookup_cons, differ]

end Store

end QueryTypes
