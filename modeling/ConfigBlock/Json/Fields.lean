import ConfigBlock.Json.Number

/-!
# Records and variants in JSON

A record is an object with one member for each field, in any order and with other members
passed over, or an array of the field values in their order. A variant is its bare name,
or an object whose only member carries the content under that name. A tagged value has a
tag that names the variant and a content beside it.
-/

namespace ConfigBlock
namespace Json

def text? : Json → Option String
  | .string s => s
  | _ => none

def bool? : Json → Option Bool
  | .bool b => some b
  | _ => none

def char? (j : Json) : Option Char := do
  match (← j.text?).toList with
  | [c] => some c
  | _ => none

/-- An integer of 64 bits with a sign. -/
def int64? (j : Json) : Option Int64 := do
  let n ← j.int?
  if Int64.minValue.toInt ≤ n ∧ n ≤ Int64.maxValue.toInt then some (.ofInt n) else none

def count? (j : Json) : Option Nat := do
  let n ← j.int?
  if 0 ≤ n ∧ n < UInt64.size then some n.toNat else none

/-- An array whose items all decode. -/
def list? {α : Type} (item? : Json → Option α) : Json → Option (List α)
  | .array items => items.mapM item?
  | _ => none

/-- The values given to the named fields. A field may be given once only. -/
def fields? (names : List String) : Json → Option (List (Option Json))
  | .array items =>
    if items.length ≤ names.length then
      some (items.map some ++ List.replicate (names.length - items.length) none)
    else none
  | .object members =>
    let keys := members.map (·.1)
    if none ∉ keys ∧ ∀ name ∈ names, keys.count (some name) ≤ 1 then
      some (names.map fun name => members.lookup (some name))
    else none
  | _ => none

/-- The content of a tagged value. One that stands in front of its tag was read before its
kind was known, and is then held to a slightly looser form. -/
structure Content where
  value : Json
  early : Bool

def tag? : Json → Option String
  | .string s => s
  | .object [(some name, .null)] => some name
  | _ => none

/-- The tag and the content of a tagged value. In front of its content in an array the tag
is a plain string; as a member of an object it has the form of any variant. -/
def tagged? (tagName contentName : String) : Json → Option (String × Content)
  | .array [tag, value] => do pure (← tag.text?, ⟨value, false⟩)
  | .object members => do
    match ← fields? [tagName, contentName] (.object members) with
    | [some tag, some value] => pure (← tag.tag?, ⟨value, early members⟩)
    | _ => none
  | _ => none
where
  /-- Whether the content is the first of the two members. -/
  early (members : List (Option String × Json)) : Bool :=
    (members.find? fun m => m.1 = some tagName ∨ m.1 = some contentName).map (·.1) =
      some (some contentName)

def variant? (c : Content) : Option (String × Option Content) :=
  match c.value with
  | .string (some name) => some (name, none)
  | .object [(some name, value)] => some (name, some ⟨value, c.early⟩)
  | _ => none

/-- A variant that carries nothing may still be given an empty content. -/
def Content.isEmpty (c : Content) : Bool :=
  match c.value with
  | .null => true
  | .object [] => c.early
  | _ => false

/-- Decode a variant that carries nothing. -/
def bare? {α : Type} (a : α) : Option Content → Option α
  | none => some a
  | some c => if c.isEmpty then some a else none

def carrying? {α : Type} (decode? : Content → Option α) : Option Content → Option α
  | none => none
  | some c => decode? c

def carryingChar? {α : Type} (f : Char → α) : Option Content → Option α :=
  carrying? fun c => c.value.char?.map f

end Json
end ConfigBlock
