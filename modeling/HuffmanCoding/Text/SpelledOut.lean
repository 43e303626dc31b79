/-!
# Values spelled out

The form in which a message shows a value with parts: a record as its name and its named fields
between braces, an alternative as its name and its content between parentheses, a list between
brackets.
-/

set_option autoImplicit false
set_option relaxedAutoImplicit false

namespace HuffmanCoding.SpelledOut

/-- A record with its fields in the given order. -/
def record (name : String) (fields : List (String × String)) : String :=
  let content := ", ".intercalate (fields.map fun (field, value) ↦ s!"{field}: {value}")
  s!"{name} \x7b {content} \x7d"

def alternative (name content : String) : String :=
  s!"{name}({content})"

def optional : Option String → String
  | some content => alternative "Some" content
  | none => "None"

def list (items : List String) : String :=
  let content := ", ".intercalate items
  s!"[{content}]"

end HuffmanCoding.SpelledOut
