import ConfigBlock.Number.Double

/-!
# Values

The right-hand side of an entry. Bare text has no literal form: it can only be built,
never read. A reference to an environment variable keeps the name and is not looked up.
-/

namespace ConfigBlock

inductive Value where
  | text (s : String)
  | quoted (s : String)
  | integer (n : Int64)
  | number (d : Double)
  | boolean (b : Bool)
  | env (name : String)
  deriving DecidableEq, Repr

namespace Value

def kindName : Value → String
  | .text _ => "text"
  | .quoted _ => "string"
  | .integer _ => "integer"
  | .number _ => "number"
  | .boolean _ => "boolean"
  | .env _ => "env"

/-- The content of a literal or of bare text. -/
def string? : Value → Option String
  | .text s => some s
  | .quoted s => some s
  | _ => none

def integer? : Value → Option Int64
  | .integer n => some n
  | _ => none

/-- The numeric view: an integer is rounded to the nearest double. -/
def double? : Value → Option Double
  | .number d => some d
  | .integer n => some (.ofInt n.toInt)
  | _ => none

def boolean? : Value → Option Bool
  | .boolean b => some b
  | _ => none

def env? : Value → Option String
  | .env name => some name
  | _ => none

/-- Equality of values, with numbers compared numerically. -/
def equals : Value → Value → Bool
  | .number d, .number e => d.equals e
  | v, w => v = w

theorem equals_self_iff (v : Value) : v.equals v = true ↔ v ≠ .number .nan := by
  cases v <;> simp [equals, Double.equals_self_iff]

end Value
end ConfigBlock
