import LazyMachine.Text.Blank

/-!
# Switching tracing

One text both switches tracing on and names what is traced. Blanks around it and the case of its
letters do not matter.
-/

namespace LazyMachine.CommandLine

/-- Whether a text is one of some words, whatever the case of its letters. -/
def isOneOf (words : List String) (text : List Char) : Bool :=
  words.any fun word => text.map Char.toLower = word.toList

/-- Whether a text switches tracing on: all do but a blank one and those that say no. -/
def tracingEnabled (text : String) : Bool :=
  let trimmed := Text.trim text.toList
  !(trimmed.isEmpty || isOneOf ["0", "false", "off"] trimmed)

/-- The filter that a text asks for, if it is more than a switch. -/
def tracingFilter? (text : String) : Option String :=
  let trimmed := Text.trim text.toList
  if trimmed.isEmpty || isOneOf ["1", "true", "on"] trimmed then none
  else some (String.ofList trimmed)

end LazyMachine.CommandLine
