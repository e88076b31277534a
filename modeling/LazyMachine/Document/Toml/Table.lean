import LazyMachine.Document.Basic

/-!
# Tables of TOML

A table is built up from headings and keys, and each key may be given only once. A heading opens a
table that has no heading yet; it may stand for a table that lies on the way to one with a heading,
but not for one that dotted keys have made. Dotted keys add to tables that dotted keys have made.
-/

namespace LazyMachine.Toml

/-- What has made a table. -/
inductive Origin where
  /-- A heading of its own. -/
  | heading
  /-- A heading of a table inside of it. -/
  | passage
  /-- Dotted keys. -/
  | dotted
deriving DecidableEq, Repr

/-- What stands under a key. -/
inductive Item where
  /-- A value, which is complete where it is written. -/
  | value (d : Document)
  /-- A table, which may grow. -/
  | table (origin : Origin) (fields : List (String × Item))
deriving Inhabited

/-- Keys and what stands under them. -/
abbrev Fields := List (String × Item)

/-- The collection of some fields. -/
def collection (fields : List (Document × Document)) : Document :=
  if fields.isEmpty then .void else .mapping fields

mutual

/-- An item as a document. -/
def Item.toDocument : Item → Document
  | .value d => d
  | .table _ fields => collection (toFields fields)

/-- Fields as those of a document. -/
def toFields : Fields → List (Document × Document)
  | [] => []
  | (name, item) :: fields => (.text name, item.toDocument) :: toFields fields

end

namespace Fields

/-- Puts an item under a key, which is there or not. -/
def put (fields : Fields) (name : String) (item : Item) : Fields :=
  if fields.any (·.1 = name) then
    fields.map fun field => if field.1 = name then (name, item) else field
  else fields ++ [(name, item)]

/-- Adds a value under a key of one or several parts. -/
def insert? (fields : Fields) : List String → Document → Option Fields
  | [], _ => none
  | [name], d =>
    match fields.lookup name with
    | none => some (fields.put name (.value d))
    | some _ => none
  | name :: part :: path, d =>
    match fields.lookup name with
    | none => (insert? [] (part :: path) d).map fun inner => fields.put name (.table .dotted inner)
    | some (.table .dotted inner) =>
      (insert? inner (part :: path) d).map fun inner => fields.put name (.table .dotted inner)
    | some (.table .passage inner) =>
      if path.isEmpty then none
      else (insert? inner (part :: path) d).map fun inner =>
        fields.put name (.table .passage inner)
    | some _ => none

/-- Opens the table of a heading. -/
def openTable? (fields : Fields) : List String → Option Fields
  | [] => none
  | [name] =>
    match fields.lookup name with
    | none => some (fields.put name (.table .heading []))
    | some (.table .passage inner) => some (fields.put name (.table .heading inner))
    | some _ => none
  | name :: path =>
    match fields.lookup name with
    | none => (openTable? [] path).map fun inner => fields.put name (.table .passage inner)
    | some (.table origin inner) =>
      (openTable? inner path).map fun inner => fields.put name (.table origin inner)
    | some (.value _) => none

/-- Adds a value under a key in the table under a path. -/
def insertIn? (fields : Fields) : (table key : List String) → Document → Option Fields
  | [], key, d => fields.insert? key d
  | name :: table, key, d =>
    match fields.lookup name with
    | some (.table origin inner) =>
      (insertIn? inner table key d).map fun inner => fields.put name (.table origin inner)
    | _ => none

end Fields

end LazyMachine.Toml
