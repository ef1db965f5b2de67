import QueryTypes.Writer

namespace QueryTypes

/-- An instruction to a writer. A failure ends the bodies around it, up to an attempt. -/
inductive Step where
  | print (text : String)
  | newline
  | newlineIfNeeded
  | onNewline (text : String)
  | pushScope (name : String)
  | popScope
  | withScope (name : String) (body : List Step)
  | withIndent (body : List Step)
  | block (body : List Step)
  | blockWith (opening closing : String) (body : List Step)
  | attempt (body : List Step)
  | fail (message : String)
  deriving Repr, Inhabited

structure Outcome where
  failure : Option String
  writer : Writer
  deriving DecidableEq, Repr, Inhabited

namespace Outcome

def done (writer : Writer) : Outcome := ⟨none, writer⟩

def thenDo (outcome : Outcome) (change : Writer → Writer) : Outcome :=
  { outcome with writer := change outcome.writer }

end Outcome

namespace Step

mutual
/-- Runs an instruction. Whatever a body does, the level and the scopes around it are restored. -/
def run (w : Writer) : Step → Outcome
  | .print text => .done (w.print text)
  | .newline => .done w.newline
  | .newlineIfNeeded => .done w.newlineIfNeeded
  | .onNewline text => .done (w.onNewline text)
  | .pushScope name => .done (w.pushScope name)
  | .popScope => .done w.popScope
  | .withScope name body => (runAll (w.pushScope name) body).thenDo (·.keepScopes w.scopes.length)
  | .withIndent body => (runAll w.enter body).thenDo (·.leave w.scopes.length)
  | .block body =>
    (runAll (w.print " \x7b").enter body).thenDo fun inner =>
      (inner.leave w.scopes.length).onNewline "\x7d"
  | .blockWith opening closing body =>
    (runAll (w.print opening).enter body).thenDo fun inner =>
      (inner.leave w.scopes.length).onNewline closing
  | .attempt body => .done (runAll w body).writer
  | .fail message => ⟨some message, w⟩

def runAll (w : Writer) : List Step → Outcome
  | [] => .done w
  | step :: rest =>
    let outcome := run w step
    if outcome.failure.isSome then outcome else runAll outcome.writer rest
end

structure Event where
  step : Step
  before : Writer
  outcome : Outcome
  deriving Repr, Inhabited

mutual
/-- The ends of an instruction and of those inside it, the inner ones first. -/
def trace (w : Writer) (step : Step) : List Event :=
  (match step with
    | .withScope name body => traceAll (w.pushScope name) body
    | .withIndent body => traceAll w.enter body
    | .block body => traceAll (w.print " \x7b").enter body
    | .blockWith opening _ body => traceAll (w.print opening).enter body
    | .attempt body => traceAll w body
    | _ => []) ++ [⟨step, w, run w step⟩]

def traceAll (w : Writer) : List Step → List Event
  | [] => []
  | step :: rest =>
    let outcome := run w step
    trace w step ++ if outcome.failure.isSome then [] else traceAll outcome.writer rest
end

end Step

end QueryTypes
