import LazyMachine.Text.Blank
import LazyMachine.Text.Split

/-!
# Files

The files that a command can read, given as a function of their path so that commands are pure.
A path leads downward only: parent components are refused.
-/

namespace LazyMachine

/-- Why a file could not be read. -/
inductive ReadError where
  | notFound
  | denied
  | notDirectory
  | isDirectory
  /-- The content is no text. -/
  | notText
deriving DecidableEq, Repr

/-- The text of a read error. -/
def ReadError.message : ReadError → String
  | .notFound => "No such file or directory (os error 2)"
  | .denied => "Permission denied (os error 13)"
  | .notDirectory => "Not a directory (os error 20)"
  | .isDirectory => "Is a directory (os error 21)"
  | .notText => "stream did not contain valid UTF-8"

/-- The files that can be read, by path. -/
abbrev Files := String → Except ReadError String

namespace Files

/-- The components of a path. -/
def components (path : String) : List String :=
  (Text.splitAll '/' path.toList).map String.ofList

/-- The components of a path that name something. -/
def names (path : String) : List String :=
  (components path).filter fun c => c ≠ "" && c ≠ "."

/-- A directory that holds just these files. -/
def ofEntries (entries : List (String × String)) : Files := fun path =>
  let entries := entries.map fun (name, text) => (names name, text)
  let wanted := names path
  if path.startsWith "/" then .error .notFound
  else
    match entries.lookup wanted with
    | some text => if path.endsWith "/" then .error .notDirectory else .ok text
    | none =>
      if path ≠ "" ∧ (wanted = [] ∨ entries.any fun e => wanted.isPrefixOf e.1) then
        .error .isDirectory
      else if entries.any fun e => e.1.isPrefixOf wanted then .error .notDirectory
      else .error .notFound

/-- What stands behind the last dot of the last component, unless that dot is its first
character. -/
def extension? (path : String) : Option String :=
  (names path).getLast?.bind fun name =>
    let reversed := name.toList.reverse
    match reversed.dropWhile (· ≠ '.') with
    | _ :: _ :: _ => some (String.ofList (reversed.takeWhile (· ≠ '.')).reverse)
    | _ => none

/-- Why a path is refused. -/
inductive PathError where
  /-- It is blank. -/
  | blank
  /-- It leads to a parent directory. -/
  | parent
deriving DecidableEq, Repr

/-- The text of a path error. -/
def PathError.message : PathError → String
  | .blank => "File path must not be empty."
  | .parent => "Parent directory components ('..') are not allowed in file paths."

/-- Accepts a path that is not blank and does not lead to a parent directory. -/
def checkPath (path : String) : Except PathError String :=
  if (Text.trim path.toList).isEmpty then .error .blank
  else if ".." ∈ components path then .error .parent
  else .ok path

end Files

end LazyMachine
