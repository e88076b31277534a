import LazyMachine.Document.Yaml.Token

/-!
# Documents in YAML

A text holds one document. The nodes of a document are scalars and block and flow collections; a
node that is left out is the plain scalar `~`.
-/

namespace LazyMachine.Yaml

/-- A node that is left out. -/
def omitted : Document := .plain "~"

/-- Whether the content of a key or value in a block mapping is left out before some tokens. -/
def isOmittedInMapping : List Token → Bool
  | .key :: _ | .value :: _ | .blockEnd :: _ => true
  | _ => false

/-- Whether an entry of a block sequence is left out before some tokens. -/
def isOmittedInSequence : List Token → Bool
  | .entry :: _ | .blockEnd :: _ => true
  | _ => false

/-- Whether the content of a value in a flow mapping is left out before some tokens. -/
def isOmittedInFlow : List Token → Bool
  | .comma :: _ | .flowMappingEnd :: _ => true
  | _ => false

/-- Whether the content of a key in a flow mapping is left out before some tokens. -/
def isOmittedFlowKey : List Token → Bool
  | .value :: _ => true
  | ts => isOmittedInFlow ts

/-- Whether the content of a value in a pair of a flow sequence is left out before some tokens. -/
def isOmittedInPair : List Token → Bool
  | .comma :: _ | .flowSequenceEnd :: _ => true
  | _ => false

mutual

/-- A node: in a flow collection it is not a `block`, and only in a block mapping it may be a
sequence whose entries stand in the column of the keys, which is `aligned`. -/
def node? : (fuel : Nat) → (block aligned : Bool) → List Token → Option (Document × List Token)
  | 0, _, _, _ => none
  | fuel + 1, block, aligned, ts =>
    match ts with
    | .scalar d :: rest => some (d, rest)
    | .flowSequence :: rest =>
      (flowItems? fuel true rest).map fun (items, rest) => (.sequence items, rest)
    | .flowMapping :: rest =>
      (flowFields? fuel true rest).map fun (fields, rest) => (.mapping fields, rest)
    | .blockSequence :: rest =>
      if block then (entries? fuel rest).map fun (items, rest) => (.sequence items, rest)
      else none
    | .blockMapping :: rest =>
      if block then (fields? fuel rest).map fun (fields, rest) => (.mapping fields, rest)
      else none
    | .entry :: _ =>
      if aligned then (alignedEntries? fuel ts).map fun (items, rest) => (.sequence items, rest)
      else none
    | _ => none

/-- A node unless it is left out. -/
def content? : (fuel : Nat) → (isOmitted block aligned : Bool) → List Token →
    Option (Document × List Token)
  | 0, _, _, _, _ => none
  | fuel + 1, isOmitted, block, aligned, ts =>
    if isOmitted then some (omitted, ts) else node? fuel block aligned ts

/-- The entries of a block sequence up to its end. -/
def entries? : (fuel : Nat) → List Token → Option (List Document × List Token)
  | 0, _ => none
  | fuel + 1, ts =>
    match ts with
    | .blockEnd :: rest => some ([], rest)
    | .entry :: rest =>
      match content? fuel (isOmittedInSequence rest) true false rest with
      | some (item, rest) => (entries? fuel rest).map fun (items, rest) => (item :: items, rest)
      | none => none
    | _ => none

/-- The entries of a block sequence in the column of the keys around it, as long as there are. -/
def alignedEntries? : (fuel : Nat) → List Token → Option (List Document × List Token)
  | 0, _ => none
  | fuel + 1, ts =>
    match ts with
    | .entry :: rest =>
      let isOmitted := isOmittedInSequence rest || isOmittedInMapping rest
      match content? fuel isOmitted true false rest with
      | some (item, rest) =>
        (alignedEntries? fuel rest).map fun (items, rest) => (item :: items, rest)
      | none => none
    | _ => some ([], ts)

/-- The fields of a block mapping up to its end. -/
def fields? : (fuel : Nat) → List Token → Option (List (Document × Document) × List Token)
  | 0, _ => none
  | fuel + 1, ts =>
    let key : Option (Option (Document × List Token)) :=
      match ts with
      | .blockEnd :: _ => some none
      | .key :: rest => (content? fuel (isOmittedInMapping rest) true true rest).map some
      | .value :: _ => some (some (omitted, ts))
      | _ => none
    match key with
    | none => none
    | some none => some ([], ts.drop 1)
    | some (some (key, ts)) =>
      let value : Option (Document × List Token) :=
        match ts with
        | .value :: rest => content? fuel (isOmittedInMapping rest) true true rest
        | _ => some (omitted, ts)
      match value with
      | some (value, rest) =>
        (fields? fuel rest).map fun (fields, rest) => ((key, value) :: fields, rest)
      | none => none

/-- The items of a flow sequence up to its end. All but the `first` follow a comma. -/
def flowItems? : (fuel : Nat) → (first : Bool) → List Token → Option (List Document × List Token)
  | 0, _, _ => none
  | fuel + 1, first, ts =>
    let start : Option (List Token) :=
      match ts with
      | .flowSequenceEnd :: _ => some ts
      | .comma :: rest => if first then none else some rest
      | _ => if first then some ts else none
    match start with
    | none => none
    | some (.flowSequenceEnd :: rest) => some ([], rest)
    | some ts =>
      let item : Option (Document × List Token) :=
        match ts with
        | .key :: rest => pair? fuel rest
        | _ => node? fuel false false ts
      match item with
      | some (item, rest) =>
        (flowItems? fuel false rest).map fun (items, rest) => (item :: items, rest)
      | none => none

/-- A pair in a flow sequence behind the token of its key. It is a mapping of one field. A key that
is left out takes the token behind it along. -/
def pair? : (fuel : Nat) → List Token → Option (Document × List Token)
  | 0, _ => none
  | fuel + 1, ts =>
    let key : Option (Document × List Token) :=
      match ts with
      | .value :: rest | .comma :: rest | .flowSequenceEnd :: rest => some (omitted, rest)
      | _ => node? fuel false false ts
    match key with
    | none => none
    | some (key, ts) =>
      let value : Option (Document × List Token) :=
        match ts with
        | .value :: rest => content? fuel (isOmittedInPair rest) false false rest
        | _ => some (omitted, ts)
      value.map fun (value, rest) => (.mapping [(key, value)], rest)

/-- The fields of a flow mapping up to its end. All but the `first` follow a comma. -/
def flowFields? : (fuel : Nat) → (first : Bool) → List Token →
    Option (List (Document × Document) × List Token)
  | 0, _, _ => none
  | fuel + 1, first, ts =>
    let start : Option (List Token) :=
      match ts with
      | .flowMappingEnd :: _ => some ts
      | .comma :: rest => if first then none else some rest
      | _ => if first then some ts else none
    match start with
    | none => none
    | some (.flowMappingEnd :: rest) => some ([], rest)
    | some ts =>
      match flowField? fuel ts with
      | some (field, rest) =>
        (flowFields? fuel false rest).map fun (fields, rest) => (field :: fields, rest)
      | none => none

/-- A field of a flow mapping. What is not announced as a key is one without a value. -/
def flowField? : (fuel : Nat) → List Token → Option ((Document × Document) × List Token)
  | 0, _ => none
  | fuel + 1, ts =>
    let value (ts : List Token) : Option (Document × List Token) :=
      match ts with
      | .value :: rest => content? fuel (isOmittedInFlow rest) false false rest
      | _ => some (omitted, ts)
    match ts with
    | .value :: _ => (value ts).map fun (v, rest) => ((omitted, v), rest)
    | .key :: rest =>
      match content? fuel (isOmittedFlowKey rest) false false rest with
      | some (key, rest) => (value rest).map fun (v, rest) => ((key, v), rest)
      | none => none
    | _ => (node? fuel false false ts).map fun (key, rest) => ((key, omitted), rest)

end

/-- Whether the content of a document is left out before some tokens. -/
def isOmittedInDocument : List Token → Bool
  | [] | .documentStart :: _ | .documentEnd :: _ => true
  | _ => false

/-- The only document of some tokens. Marks at its end may repeat. -/
def document? (ts : List Token) : Option Document :=
  let fuel := 3 * ts.length + 3
  let content : Option (Document × List Token) :=
    match ts with
    | .documentStart :: rest => content? fuel (isOmittedInDocument rest) true false rest
    | _ => node? fuel true false ts
  match content with
  | some (d, rest) =>
    if rest.all fun | .documentEnd => true | _ => false then some d else none
  | none => none

/-- Reads a text that holds one document. -/
def parse? (text : String) : Option Document :=
  (tokens? text).bind document?

end LazyMachine.Yaml
