import ConfigBlock.Source.CharClass
import ConfigBlock.Source.Position

/-!
# Cursors

A cursor is a place in a text: what is still unread, and where that starts. Every
movement drops characters from the unread part and moves the position over exactly
those characters; `Reaches` states this relation between two cursors.
-/

namespace ConfigBlock

structure Cursor where
  rest : List Char
  position : Position
  deriving DecidableEq, Repr, Inhabited

namespace Cursor

def ofChars (text : List Char) : Cursor := ⟨text, .origin⟩

def ofText (text : String) : Cursor := ofChars text.toList

/-- The character under the cursor, if the text goes on. -/
def current (c : Cursor) : Option Char := c.rest.head?

def atEnd (c : Cursor) : Bool := c.rest.isEmpty

def atStart (c : Cursor) : Bool := c.position.offset == 0

/-- Step over the current character; at the end of the text nothing moves. -/
def advance : Cursor → Cursor
  | ⟨[], p⟩ => ⟨[], p⟩
  | ⟨c :: cs, p⟩ => ⟨cs, p.step c⟩

/-- Step over the current character, and say whether there was one. -/
def tryAdvance (c : Cursor) : Bool × Cursor := (!c.atEnd, c.advance)

def run (c : Cursor) (test : Char → Bool) : List Char := c.rest.takeWhile test

def skipWhile (c : Cursor) (test : Char → Bool) : Cursor :=
  ⟨c.rest.dropWhile test, c.position.advance (c.run test)⟩

/-- Step over blanks, which never include a newline. -/
def skipSpaces (c : Cursor) : Cursor := c.skipWhile CharClass.isSpace

/-- The rest of the current line, without its newline. -/
def lineText (c : Cursor) : List Char := c.run (!CharClass.isNewline ·)

/-- Step over the rest of the current line and its newline, if it has one. -/
def skipLine (c : Cursor) : Cursor := (c.skipWhile (!CharClass.isNewline ·)).advance

/-- A cursor put on a recorded position of `text`. The offset must fall between two
characters or at an end of the text; line and column are taken as recorded. -/
def restore? (text : List Char) (p : Position) : Option Cursor :=
  (go text p.offset).map (⟨·, p⟩)
where
  go : List Char → Nat → Option (List Char)
    | cs, 0 => some cs
    | [], _ + 1 => none
    | c :: cs, n + 1 => if c.utf8Size ≤ n + 1 then go cs (n + 1 - c.utf8Size) else none

/-- Put the cursor on a recorded position of `text`, and say whether that was possible: if it
was not, the cursor stays. -/
def restore (c : Cursor) (text : List Char) (p : Position) : Bool × Cursor :=
  match restore? text p with
  | some c' => (true, c')
  | none => (false, c)

/-- The cursor `c'` stands in the same text as `c`, at or behind it: the characters
between the two were unread at `c`, and `c'` has the position of `c` moved over them. -/
def Reaches (c c' : Cursor) : Prop :=
  ∃ read, c.rest = read ++ c'.rest ∧ c'.position = c.position.advance read

@[simp] theorem current_mk (cs : List Char) (p : Position) : (mk cs p).current = cs.head? := rfl

@[simp] theorem advance_nil (p : Position) : (mk [] p).advance = ⟨[], p⟩ := rfl

@[simp] theorem advance_cons (c : Char) (cs : List Char) (p : Position) :
    (mk (c :: cs) p).advance = ⟨cs, p.step c⟩ := rfl

namespace Reaches

theorem refl (c : Cursor) : Reaches c c := ⟨[], rfl, rfl⟩

theorem trans {a b c : Cursor} (h : Reaches a b) (h' : Reaches b c) : Reaches a c := by
  obtain ⟨r, hr, hp⟩ := h
  obtain ⟨r', hr', hp'⟩ := h'
  exact ⟨r ++ r', by simp [hr, hr'], by simp [hp, hp']⟩

theorem length_le {c c' : Cursor} (h : Reaches c c') : c'.rest.length ≤ c.rest.length := by
  obtain ⟨r, hr, -⟩ := h
  simp [hr]

end Reaches

theorem reaches_advance (c : Cursor) : Reaches c c.advance := by
  obtain ⟨_ | ⟨x, xs⟩, p⟩ := c
  · exact .refl _
  · exact ⟨[x], rfl, rfl⟩

theorem reaches_skipWhile (c : Cursor) (test : Char → Bool) : Reaches c (c.skipWhile test) :=
  ⟨c.run test, (List.takeWhile_append_dropWhile (p := test)).symm, rfl⟩

theorem reaches_skipSpaces (c : Cursor) : Reaches c c.skipSpaces := reaches_skipWhile c _

theorem reaches_skipLine (c : Cursor) : Reaches c c.skipLine :=
  (reaches_skipWhile c _).trans (reaches_advance _)

theorem length_advance_lt {c : Cursor} (h : c.current ≠ none) :
    c.advance.rest.length < c.rest.length := by
  obtain ⟨_ | ⟨x, xs⟩, p⟩ := c
  · simp at h
  · simp

theorem length_skipLine_lt {c : Cursor} (h : c.atEnd = false) :
    c.skipLine.rest.length < c.rest.length := by
  obtain ⟨_ | ⟨x, xs⟩, p⟩ := c
  · simp [atEnd] at h
  · by_cases hx : x = '\n'
    · simp [skipLine, skipWhile, hx, CharClass.isNewline]
    · have hd : (xs.dropWhile (!CharClass.isNewline ·)).length ≤ xs.length :=
        (List.dropWhile_sublist _).length_le
      have ha := (reaches_advance ((mk (x :: xs) p).skipWhile (!CharClass.isNewline ·))).length_le
      have hs : ((mk (x :: xs) p).skipWhile (!CharClass.isNewline ·)).rest =
          xs.dropWhile (!CharClass.isNewline ·) := by
        simp [skipWhile, CharClass.isNewline, hx]
      rw [hs] at ha
      simp only [skipLine, List.length_cons]
      omega

end Cursor
end ConfigBlock
