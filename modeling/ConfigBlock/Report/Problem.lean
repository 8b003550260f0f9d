/-!
# What can be wrong with a block

Every part of the language has a closed vocabulary of problems. `Problem` is their
sum, so that one list can hold whatever a reading of a block finds, and `message`
is the only place that knows the wording.
-/

namespace ConfigBlock

/-- Problems at the start of a line. -/
inductive BlockProblem where
  | endOfText
  | unexpected (c : Char)
  deriving DecidableEq, Repr

/-- Problems between an entry's value and the end of its line, or after the brace
that closes the block. -/
inductive EntryProblem where
  | endOfText
  | unexpected (c : Char)
  | skippedText
  deriving DecidableEq, Repr

inductive KeyProblem where
  | missingEquals (c : Char)
  | unexpected (c : Char)
  | endOfText
  | endOfLine
  deriving DecidableEq, Repr

/-- Problems with the character that should open a value. -/
inductive ValueProblem where
  | endOfText
  | unexpected (c : Char)
  deriving DecidableEq, Repr

inductive LiteralProblem where
  | controlCharacter
  | newline
  | endOfText
  deriving DecidableEq, Repr

inductive NumeralProblem where
  | integerForDouble
  | unexpected (c : Char)
  | malformed (text : String)
  | endOfText
  deriving DecidableEq, Repr

inductive BooleanProblem where
  | unexpected (c : Char)
  | endOfText
  deriving DecidableEq, Repr

inductive EnvProblem where
  | unexpected (c : Char)
  | literal (problem : LiteralProblem)
  | endOfText
  deriving DecidableEq, Repr

inductive CommentProblem where
  | unexpected (c : Char)
  deriving DecidableEq, Repr

inductive Problem where
  | block (problem : BlockProblem)
  | entry (problem : EntryProblem)
  | key (problem : KeyProblem)
  | value (problem : ValueProblem)
  | literal (problem : LiteralProblem)
  | numeral (problem : NumeralProblem)
  | boolean (problem : BooleanProblem)
  | env (problem : EnvProblem)
  | comment (problem : CommentProblem)
  deriving DecidableEq, Repr

namespace Problem

def endOfTextMessage : String := "Unexpected end of stream"

def endOfLineMessage : String := "Unexpected end of line"

def unexpectedMessage (c : Char) : String :=
  "Unexpected character \"" ++ c.toString ++ "\""

def literalMessage : LiteralProblem → String
  | .controlCharacter => "Skipped unexpected control character"
  | .newline => endOfLineMessage
  | .endOfText => endOfTextMessage

/-- The wording of a problem, without its place. -/
def message : Problem → String
  | .block .endOfText => endOfTextMessage
  | .block (.unexpected c) => unexpectedMessage c
  | .entry .endOfText => endOfTextMessage
  | .entry (.unexpected c) => unexpectedMessage c
  | .entry .skippedText => "Skipped unexpected characters after the end of the block"
  | .key (.missingEquals c) => "Expected \"=\" but encountered \"" ++ c.toString ++ "\""
  | .key (.unexpected c) => unexpectedMessage c
  | .key .endOfText => endOfTextMessage
  | .key .endOfLine => endOfLineMessage
  | .value .endOfText => endOfTextMessage
  | .value (.unexpected c) => unexpectedMessage c
  | .literal p => literalMessage p
  | .numeral .integerForDouble =>
    "Received an Integer number but a Double number was expected"
  | .numeral (.unexpected c) => unexpectedMessage c
  | .numeral (.malformed text) => "Unexpected string \"" ++ text ++ "\""
  | .numeral .endOfText => endOfTextMessage
  | .boolean (.unexpected c) => unexpectedMessage c
  | .boolean .endOfText => endOfTextMessage
  | .env (.unexpected c) => unexpectedMessage c
  | .env (.literal p) => "Inner quoted string value parsing failed: " ++ literalMessage p
  | .env .endOfText => endOfTextMessage
  | .comment (.unexpected c) => unexpectedMessage c ++ " in a comment opening"

/-- A problem of a literal, as reported for the variable name it would have spelled.
Problems of other parts stay as they are. -/
def insideEnv : Problem → Problem
  | .literal p => .env (.literal p)
  | p => p

@[simp] theorem insideEnv_literal (p : LiteralProblem) :
    insideEnv (.literal p) = .env (.literal p) := rfl

end Problem
end ConfigBlock
