import ConfigBlock.Report.Outcome

/-!
# Parsers

A parser reads at a cursor and gives an outcome together with the cursor where it
stopped. Sequencing keeps every diagnostic in order and stops at the first failure,
with the cursor left where the failing step left it. `Moves` says that a parser only
ever steps over text, never back and never past anything unread.
-/

namespace ConfigBlock

def Parser (α : Type) : Type := Cursor → Outcome α × Cursor

namespace Parser

variable {α β γ : Type}

protected def pure (a : α) : Parser α := fun c => (.success a [], c)

protected def bind (p : Parser α) (f : α → Parser β) : Parser β := fun c =>
  match p c with
  | (.success a ds, c') => ((f a c').1.withLeading ds, (f a c').2)
  | (.failure ds, c') => (.failure ds, c')

instance : Monad Parser where
  pure := Parser.pure
  bind := Parser.bind

def current : Parser (Option Char) := fun c => (.success c.current [], c)

def advance : Parser (Option Char) := fun c => (.success c.advance.current [], c.advance)

/-- Step over blanks and give the character that ends them. -/
def skipSpaces : Parser (Option Char) := fun c =>
  (.success c.skipSpaces.current [], c.skipSpaces)

/-- Step over the longest run of characters satisfying `test`, and give it. -/
def takeWhile (test : Char → Bool) : Parser (List Char) := fun c =>
  (.success (c.run test) [], c.skipWhile test)

/-- Step over the rest of the line and its newline, and give the text before the newline. -/
def skipLine : Parser (List Char) := fun c => (.success c.lineText [], c.skipLine)

def position : Parser Position := fun c => (.success c.position [], c)

def error (problem : Problem) : Parser α := fun c => (.failure [c.error problem], c)

def warning (problem : Problem) : Parser Unit := fun c => (.success () [c.warning problem], c)

/-- Change what `p` reports, leaving its value and its movement alone. -/
def mapDiagnostics (f : Diagnostic → Diagnostic) (p : Parser α) : Parser α := fun c =>
  ((p c).1.mapDiagnostics f, (p c).2)

/-- Step onto one character after the other, each of which must match its expected one. -/
def spell (accepts : Char → Char → Bool) (atEnd : Problem) (unexpected : Char → Problem) :
    List Char → Parser Unit
  | [] => pure ()
  | expected :: rest => do
    match ← advance with
    | none => error atEnd
    | some c =>
      if accepts expected c then spell accepts atEnd unexpected rest else error (unexpected c)

/-- Run `p` only on a cursor standing on `first`. -/
def startingOn? (first : Char) (p : Parser α) (c : Cursor) : Option (Outcome α × Cursor) :=
  if c.current = some first then some (p c) else none

theorem pure_apply (a : α) (c : Cursor) :
    (Pure.pure a : Parser α) c = (.success a [], c) := rfl

theorem bind_apply (p : Parser α) (f : α → Parser β) (c : Cursor) :
    (p >>= f) c = match p c with
      | (.success a ds, c') => ((f a c').1.withLeading ds, (f a c').2)
      | (.failure ds, c') => (.failure ds, c') := rfl

theorem bind_of_success {p : Parser α} {f : α → Parser β} {c c' : Cursor} {a : α}
    {ds : List Diagnostic} (h : p c = (.success a ds, c')) :
    (p >>= f) c = ((f a c').1.withLeading ds, (f a c').2) := by
  simp [bind_apply, h]

theorem bind_of_failure {p : Parser α} {f : α → Parser β} {c c' : Cursor}
    {ds : List Diagnostic} (h : p c = (.failure ds, c')) :
    (p >>= f) c = (.failure ds, c') := by
  simp [bind_apply, h]

instance : LawfulMonad Parser := LawfulMonad.mk'
  Parser
  (fun p => by
    funext c
    change Parser.bind p (fun a => Parser.pure a) c = p c
    simp only [Parser.bind, Parser.pure]
    rcases p c with ⟨_ | _, c'⟩ <;> simp)
  (fun a f => by
    funext c
    change Parser.bind (Parser.pure a) f c = f a c
    simp [Parser.bind, Parser.pure])
  (fun p f g => by
    funext c
    simp only [bind_apply]
    rcases p c with ⟨⟨a, ds⟩ | ds, c'⟩
    · rcases h : f a c' with ⟨⟨b, es⟩ | es, c''⟩
      · simp [h]
      · simp [h]
    · rfl)

/-- From every cursor, `p` stops at a cursor reached by stepping over text. -/
def Moves (p : Parser α) : Prop := ∀ c : Cursor, c.Reaches (p c).2

namespace Moves

theorem pure (a : α) : Moves (Pure.pure a : Parser α) := fun c => .refl c

theorem bind {p : Parser α} {f : α → Parser β} (hp : Moves p) (hf : ∀ a, Moves (f a)) :
    Moves (p >>= f) := by
  intro c
  have h := hp c
  rcases hpc : p c with ⟨⟨a, ds⟩ | ds, c'⟩ <;> rw [hpc] at h
  · rw [bind_of_success hpc]
    exact h.trans (hf a c')
  · rw [bind_of_failure hpc]
    exact h

theorem current : Moves current := fun c => .refl c

theorem advance : Moves advance := fun c => c.reaches_advance

theorem skipSpaces : Moves skipSpaces := fun c => c.reaches_skipSpaces

theorem takeWhile (test : Char → Bool) : Moves (takeWhile test) := fun c => c.reaches_skipWhile test

theorem skipLine : Moves skipLine := fun c => c.reaches_skipLine

theorem error (problem : Problem) : Moves (error problem : Parser α) := fun c => .refl c

theorem warning (problem : Problem) : Moves (warning problem) := fun c => .refl c

theorem mapDiagnostics (f : Diagnostic → Diagnostic) {p : Parser α} (hp : Moves p) :
    Moves (mapDiagnostics f p) := hp

theorem spell (accepts : Char → Char → Bool) (atEnd : Problem) (unexpected : Char → Problem)
    (cs : List Char) : Moves (spell accepts atEnd unexpected cs) := by
  induction cs with
  | nil => exact .pure _
  | cons expected rest ih =>
    refine .bind .advance fun x => ?_
    split
    · exact .error _
    · split
      · exact ih
      · exact .error _

end Moves

/-- Like `Moves`, and unless the text is over `p` steps over at least one character. -/
structure Shrinks (p : Parser α) : Prop where
  moves : p.Moves
  length_lt : ∀ c : Cursor, c.current ≠ none → (p c).2.rest.length < c.rest.length

namespace Shrinks

theorem advance : Shrinks advance := ⟨.advance, fun _ h => Cursor.length_advance_lt h⟩

theorem bind {p : Parser α} {f : α → Parser β} (hp : Shrinks p) (hf : ∀ a, Moves (f a)) :
    Shrinks (p >>= f) := by
  refine ⟨hp.moves.bind hf, fun c hc => ?_⟩
  have h := hp.length_lt c hc
  rcases hpc : p c with ⟨⟨a, ds⟩ | ds, c'⟩ <;> rw [hpc] at h
  · rw [bind_of_success hpc]
    exact Nat.lt_of_le_of_lt (hf a c').length_le h
  · rw [bind_of_failure hpc]
    exact h

end Shrinks
end Parser
end ConfigBlock
