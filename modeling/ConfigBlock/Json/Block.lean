import ConfigBlock.Block.Basic
import ConfigBlock.Json.Fields

/-!
# Blocks in JSON

A value is tagged with its kind. Integers and doubles both are JSON numbers, told apart by
the tag, and a double that is not finite cannot be written.
-/

namespace ConfigBlock

namespace Value

def tag : Value → String
  | .text _ => "text"
  | .quoted _ => "quoted_string"
  | .integer _ => "integer"
  | .number _ => "number"
  | .boolean _ => "boolean"
  | .env _ => "env_ref"

def content : Value → Json
  | .text s => .text s
  | .quoted s => .text s
  | .integer n => .ofInt n.toInt
  | .number d => .ofDouble d
  | .boolean b => .bool b
  | .env name => .text name

def toJson (v : Value) : Json := .record [("kind", .text v.tag), ("value", v.content)]

def ofContent? (tag : String) (j : Json) : Option Value :=
  match tag with
  | "text" => j.text?.map .text
  | "quoted_string" => j.text?.map .quoted
  | "integer" => j.int64?.map .integer
  | "number" => j.double?.map .number
  | "boolean" => j.bool?.map .boolean
  | "env_ref" => j.text?.map .env
  | _ => none

def ofJson? (j : Json) : Option Value := do
  let (tag, c) ← j.tagged? "kind" "value"
  ofContent? tag c.value

end Value

namespace Entry

def toJson (e : Entry) : Json :=
  .record [("key", .text e.key), ("value", e.value.toJson), ("comments", .texts e.comments)]

def ofJson? (j : Json) : Option Entry := do
  match ← j.fields? ["key", "value", "comments"] with
  | [some key, some value, some comments] =>
    pure ⟨← key.text?, ← Value.ofJson? value, ← comments.list? Json.text?⟩
  | _ => none

end Entry

namespace Block

def toJson (b : Block) : Json :=
  .record [("name", .text b.name), ("lines", .array (b.entries.map Entry.toJson)),
    ("comments", .texts b.comments)]

def ofJson? (j : Json) : Option Block := do
  match ← j.fields? ["name", "lines", "comments"] with
  | [some name, some entries, some comments] =>
    pure ⟨← name.text?, ← entries.list? Entry.ofJson?, ← comments.list? Json.text?⟩
  | _ => none

end Block

namespace Header

def toJson (h : Header) : Json :=
  .record [("name", .text h.name), ("comments", .texts h.comments)]

/-- The comments of a header may be missing. -/
def ofJson? (j : Json) : Option Header := do
  match ← j.fields? ["name", "comments"] with
  | [some name, some comments] => pure ⟨← name.text?, ← comments.list? Json.text?⟩
  | [some name, none] => pure ⟨← name.text?, []⟩
  | _ => none

end Header
end ConfigBlock
