import ConfigBlock.Json.Fields
import ConfigBlock.Report.Diagnostic

/-!
# Positions and diagnostics in JSON

A problem is tagged with the part of the language it belongs to; within that part it is a
variant that carries at most a character, a text or the problem of a literal.
-/

namespace ConfigBlock

namespace Position

def toJson (p : Position) : Json :=
  .record [("offset", .ofNat p.offset), ("line", .ofNat p.line), ("column", .ofNat p.column)]

def ofJson? (j : Json) : Option Position := do
  match ← j.fields? ["offset", "line", "column"] with
  | [some offset, some line, some column] =>
    pure ⟨← offset.count?, ← line.count?, ← column.count?⟩
  | _ => none

end Position

namespace Severity

def toJson (s : Severity) : Json := .text s.text

def ofName? : String → Option Severity
  | "warning" => some .warning
  | "error" => some .error
  | _ => none

def ofJson? (j : Json) : Option Severity := do ofName? (← j.tag?)

end Severity

namespace Problem

def variant (name : String) (content : Json) : Json := .record [(name, content)]

def unexpected (c : Char) : Json := variant "UnexpectedSymbol" (.text c.toString)

def endOfText : Json := .text "EndOfStream"

def literalToJson : LiteralProblem → Json
  | .controlCharacter => .text "ControlCharacter"
  | .newline => .text "NewLine"
  | .endOfText => endOfText

/-- The part of the language a problem belongs to. -/
def part : Problem → String
  | .block _ => "block"
  | .entry _ => "key_value"
  | .key _ => "key"
  | .value _ => "value"
  | .literal _ => "quoted_string"
  | .numeral _ => "number"
  | .boolean _ => "boolean"
  | .env _ => "env"
  | .comment _ => "comment"

def content : Problem → Json
  | .block .endOfText => endOfText
  | .block (.unexpected c) => unexpected c
  | .entry .endOfText => endOfText
  | .entry (.unexpected c) => unexpected c
  | .entry .skippedText => .text "SkippedSymbols"
  | .key (.missingEquals c) => variant "MissingEqualsSign" (.text c.toString)
  | .key (.unexpected c) => unexpected c
  | .key .endOfText => endOfText
  | .key .endOfLine => .text "EndOfLine"
  | .value .endOfText => endOfText
  | .value (.unexpected c) => unexpected c
  | .literal p => literalToJson p
  | .numeral .integerForDouble => .text "IntegerInsteadOfDouble"
  | .numeral (.unexpected c) => unexpected c
  | .numeral (.malformed text) => variant "UnexpectedSequence" (.text text)
  | .numeral .endOfText => endOfText
  | .boolean (.unexpected c) => unexpected c
  | .boolean .endOfText => endOfText
  | .env (.unexpected c) => unexpected c
  | .env (.literal p) => variant "QuotedString" (literalToJson p)
  | .env .endOfText => endOfText
  | .comment (.unexpected c) => unexpected c

def toJson (p : Problem) : Json := .record [("parser", .text p.part), ("problem", p.content)]

open Json

def literalOfJson? (c : Content) : Option LiteralProblem := do
  match ← variant? c with
  | ("ControlCharacter", x) => bare? .controlCharacter x
  | ("NewLine", x) => bare? .newline x
  | ("EndOfStream", x) => bare? .endOfText x
  | _ => none

/-- Decode the content of a problem of the given part. -/
def ofContent? (part : String) (c : Content) : Option Problem := do
  match part, ← variant? c with
  | "block", ("EndOfStream", x) => bare? (.block .endOfText) x
  | "block", ("UnexpectedSymbol", x) => carryingChar? (.block <| .unexpected ·) x
  | "key_value", ("EndOfStream", x) => bare? (.entry .endOfText) x
  | "key_value", ("UnexpectedSymbol", x) => carryingChar? (.entry <| .unexpected ·) x
  | "key_value", ("SkippedSymbols", x) => bare? (.entry .skippedText) x
  | "key", ("MissingEqualsSign", x) => carryingChar? (.key <| .missingEquals ·) x
  | "key", ("UnexpectedSymbol", x) => carryingChar? (.key <| .unexpected ·) x
  | "key", ("EndOfStream", x) => bare? (.key .endOfText) x
  | "key", ("EndOfLine", x) => bare? (.key .endOfLine) x
  | "value", ("EndOfStream", x) => bare? (.value .endOfText) x
  | "value", ("UnexpectedSymbol", x) => carryingChar? (.value <| .unexpected ·) x
  | "quoted_string", _ => (literalOfJson? c).map .literal
  | "number", ("IntegerInsteadOfDouble", x) => bare? (.numeral .integerForDouble) x
  | "number", ("UnexpectedSymbol", x) => carryingChar? (.numeral <| .unexpected ·) x
  | "number", ("UnexpectedSequence", x) =>
    carrying? (fun d => d.value.text?.map (.numeral <| .malformed ·)) x
  | "number", ("EndOfStream", x) => bare? (.numeral .endOfText) x
  | "boolean", ("UnexpectedSymbol", x) => carryingChar? (.boolean <| .unexpected ·) x
  | "boolean", ("EndOfStream", x) => bare? (.boolean .endOfText) x
  | "env", ("UnexpectedSymbol", x) => carryingChar? (.env <| .unexpected ·) x
  | "env", ("QuotedString", x) =>
    carrying? (fun d => (literalOfJson? d).map (.env <| .literal ·)) x
  | "env", ("EndOfStream", x) => bare? (.env .endOfText) x
  | "comment", ("UnexpectedSymbol", x) => carryingChar? (.comment <| .unexpected ·) x
  | _, _ => none

def ofJson? (j : Json) : Option Problem := do
  let (part, c) ← j.tagged? "parser" "problem"
  ofContent? part c

end Problem

namespace Diagnostic

def toJson (d : Diagnostic) : Json :=
  .record [("problem", d.problem.toJson), ("line", .ofNat d.line), ("column", .ofNat d.column),
    ("severity", d.severity.toJson)]

def ofJson? (j : Json) : Option Diagnostic := do
  match ← j.fields? ["problem", "line", "column", "severity"] with
  | [some problem, some line, some column, some severity] =>
    pure ⟨← Problem.ofJson? problem, ← line.count?, ← column.count?, ← Severity.ofJson? severity⟩
  | _ => none

end Diagnostic
end ConfigBlock
