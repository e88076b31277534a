import LazyMachine.CommandLine

/-!
# The program

Reads the files that the arguments name, performs the request and writes what it gives. The
interactive evaluator reads its input line by line.
-/

namespace LazyMachine.CommandLine

/-- Bounds every evaluation. -/
def evaluationLevel : Nat := 1000000000

/-- Reads a file. -/
def readPath (path : String) : IO (Except ReadError String) := do
  match ← (IO.FS.readFile path).toBaseIO with
  | .ok text => return .ok text
  | .error e =>
    match e with
    | .noFileOrDirectory _ _ _ => return .error .notFound
    | .permissionDenied _ _ _ => return .error .denied
    | .inappropriateType _ code _ =>
      return .error (if code = 20 then .notDirectory else .isDirectory)
    | _ => return .error .notText

/-- Writes what a command wrote. -/
def writeResult (r : Result) : IO Unit := do
  IO.print r.stdout
  IO.eprint r.stderr

/-- Answers the lines of the standard input. -/
partial def serveLines (settings : Settings) (text : List Char) : IO Unit := do
  let line ← (← IO.getStdin).getLine
  if line.isEmpty then writeResult (Repl.finish evaluationLevel settings text)
  else
    let line := if line.endsWith "\n" then line.toList.dropLast else line.toList
    match Repl.advance evaluationLevel settings text line with
    | .quit => pure ()
    | .next text written =>
      writeResult written
      serveLines settings text

/-- Performs the request of the arguments and gives the exit code. -/
def serve (args : List String) : IO UInt32 := do
  match Request.read? args with
  | none =>
    IO.eprintln "Usage: fen [OPTIONS] [COMMAND]"
    return 2
  | some request =>
    let read ← request.paths.mapM fun path => do return (path, ← readPath path)
    let files : Files := fun path => (read.lookup path).getD (.error .notFound)
    match request with
    | .command .repl o =>
      match o.settings files with
      | .ok settings =>
        IO.eprint Repl.greeting
        serveLines settings []
        return 0
      | .error e =>
        writeResult (.ofBadSettings e)
        return 2
    | request =>
      let result := request.perform evaluationLevel files ""
      writeResult result
      return result.code.toUInt32

end LazyMachine.CommandLine

/-- The program. -/
def main (args : List String) : IO UInt32 :=
  LazyMachine.CommandLine.serve args
