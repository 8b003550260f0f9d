/-!
# Character classes of the block language

Keys, numerals and literals are recognised by ASCII classes only: a character
outside ASCII is never a letter, a digit, a blank or a control character here.
-/

namespace ConfigBlock
namespace CharClass

/-- Control characters are the code points below the space. -/
def isControl (c : Char) : Bool := c.toNat < 32

def isLetter (c : Char) : Bool :=
  ('a' ≤ c && c ≤ 'z') || ('A' ≤ c && c ≤ 'Z')

def isDigit (c : Char) : Bool := '0' ≤ c && c ≤ '9'

/-- Keys are made of letters, digits and underscores. -/
def isWord (c : Char) : Bool := isLetter c || isDigit c || c == '_'

/-- Only the plain space is a blank; a tab is not. -/
def isSpace (c : Char) : Bool := c == ' '

def isNewline (c : Char) : Bool := c == '\n'

@[simp] theorem isSpace_iff (c : Char) : isSpace c = true ↔ c = ' ' := by
  simp [isSpace]

@[simp] theorem isNewline_iff (c : Char) : isNewline c = true ↔ c = '\n' := by
  simp [isNewline]

end CharClass
end ConfigBlock
