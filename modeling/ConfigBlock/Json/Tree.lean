/-!
# JSON documents

A document is a tree. Numbers are kept as they are written, since a reader must still be
able to tell an integer from a number with a point. A string that its escapes do not turn
into Unicode text is kept as `none`: nothing can be read from it, but a document that
holds one where nobody looks is still a document.
-/

namespace ConfigBlock

/-- A number as written: the digits after the point are empty if there is no point. -/
structure JsonNumeral where
  negative : Bool
  whole : Nat
  fraction : List Char
  exponent : Option Int
  deriving DecidableEq, Repr

inductive Json where
  | null
  | bool (b : Bool)
  | number (n : JsonNumeral)
  | string (s : Option String)
  | array (items : List Json)
  | object (members : List (Option String × Json))

namespace Json

def text (s : String) : Json := .string (some s)

def record (members : List (String × Json)) : Json :=
  .object (members.map fun m => (some m.1, m.2))

def texts (ss : List String) : Json := .array (ss.map text)

def ofInt (n : Int) : Json := .number ⟨n < 0, n.natAbs, [], none⟩

def ofNat (n : Nat) : Json := .number ⟨false, n, [], none⟩

end Json
end ConfigBlock
