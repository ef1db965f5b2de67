import QueryTypes.Value.Printer

namespace QueryTypes

structure Writer where
  output : String := ""
  scopes : List String := []
  level : Nat := 0
  /-- Whether nothing stands behind the last opening of a level. -/
  atStart : Bool := false
  deriving DecidableEq, Repr, Inhabited

namespace Writer

def print (w : Writer) (text : String) : Writer := { w with output := w.output ++ text }

/-- Ends the line, except at the very beginning of the text. -/
def newline (w : Writer) : Writer :=
  if w.output.isEmpty then w else { w with output := w.output ++ "\n", atStart := false }

/-- Ends the line unless a level was just opened. -/
def newlineIfNeeded (w : Writer) : Writer := if w.atStart then w else w.newline

/-- Writes an indented line of its own. An empty one is not written. -/
def onNewline (w : Writer) (text : String) : Writer :=
  if text.isEmpty then w else (w.newline.print (spaces (2 * w.level))).print text

def pushScope (w : Writer) (name : String) : Writer := { w with scopes := w.scopes ++ [name] }

def popScope (w : Writer) : Writer := { w with scopes := w.scopes.dropLast }

def keepScopes (w : Writer) (depth : Nat) : Writer := { w with scopes := w.scopes.take depth }

def scopedName (w : Writer) (separator : String) : String := separator.intercalate w.scopes

def enter (w : Writer) : Writer := { w with level := w.level + 1, atStart := true }

/-- Closes a level, and drops the scopes opened on it. -/
def leave (w : Writer) (depth : Nat) : Writer := { w.keepScopes depth with level := w.level - 1 }

def indented (w : Writer) (body : Writer → Writer) : Writer := (body w.enter).leave w.scopes.length

def enclosed (w : Writer) (opening closing : String) (body : Writer → Writer) : Writer :=
  ((w.print opening).indented body).onNewline closing

def block (w : Writer) (body : Writer → Writer) : Writer := w.enclosed " \x7b" "\x7d" body

def each {α : Type} (w : Writer) (xs : List α) (write : Writer → α → Writer) : Writer :=
  xs.foldl write w

def onNewlines (w : Writer) (texts : List String) : Writer := w.each texts onNewline

end Writer

end QueryTypes
