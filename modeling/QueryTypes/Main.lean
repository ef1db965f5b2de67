import QueryTypes.CommandLine

namespace QueryTypes

def readDisk (path : String) : IO (Except Error String) := do
  try
    match Node.ofBytes (← IO.FS.readBinFile path) with
    | .text contents => return .ok contents
    | _ => return .error .io
  catch _ => return .error .io

def stagingPath (path : String) : String := path ++ ".staged"

/-- Prepares a delivery and gives the action that completes it. -/
def prepare : Delivery → IO (IO Unit)
  | .file path contents => do
    IO.FS.writeFile (stagingPath path) contents
    return IO.FS.rename (stagingPath path) path
  | .console text => return IO.print text

def discard : Delivery → IO Unit
  | .file path _ => try IO.FS.removeFile (stagingPath path) catch _ => return ()
  | .console _ => return ()

def deliver (deliveries : List Delivery) : IO (Except Error Unit) := do
  try
    let completions ← deliveries.mapM prepare
    completions.forM id
    return .ok ()
  catch _ =>
    deliveries.forM discard
    return .error .io

def runOnDisk (request : Request) : IO (Except Error Unit) := do
  let files ← (request.schemas ++ request.inputs).mapM fun path => do
    return (path, ← readDisk path)
  match request.artifacts fun path => (files.lookup path).getD (.error .io) with
  | .ok made => deliver (request.deliveries made)
  | .error e => return .error e

end QueryTypes

open QueryTypes CommandLine in
def main (words : List String) : IO UInt32 := do
  match Command.read words with
  | none =>
    IO.eprintln usageText
    return 2
  | some .version =>
    IO.print versionText
    return 0
  | some (.generate verbose request) =>
    (logLevelWarning verbose (← IO.getEnv "LOG_LEVEL")).forM IO.eprintln
    match ← runOnDisk request with
    | .ok () => return 0
    | .error e =>
      IO.eprintln (failureText e)
      return 1
