import ConfigBlock.Proofs.Reading
import ConfigBlock.Value.Literal
import Mathlib.Tactic.SplitIfs

/-!
# The form of a literal

Between its quotes a literal is a sequence of pieces: a character that stands for itself, or
a backslash with any character behind it. Reading succeeds exactly on such a sequence with
quotes around it, and the content is the meanings of the pieces put together.
-/

namespace ConfigBlock
namespace Literal

open ConfigBlock.Parser

/-- One step of a literal's inside. A newline belongs to no piece. -/
inductive Piece where
  | plain (c : Char) (h : c ≠ '\n' ∧ c ≠ '\\' ∧ c ≠ '"')
  | pair (c : Char) (h : c ≠ '\n')

namespace Piece

def text : Piece → List Char
  | .plain c _ => [c]
  | .pair c _ => ['\\', c]

/-- What a piece adds to the content. Only a quote loses its backslash, and only control
characters are dropped. -/
def meaning : Piece → List Char
  | .plain c _ => if CharClass.isControl c then [] else [c]
  | .pair c _ =>
    if c = '"' then ['"'] else if CharClass.isControl c then ['\\'] else ['\\', c]

def isControl : Piece → Bool
  | .plain c _ => CharClass.isControl c
  | .pair c _ => CharClass.isControl c

end Piece

/-- The inside of a literal, with its quotes. -/
def quotedText (ps : List Piece) : List Char := '"' :: ps.flatMap Piece.text ++ ['"']

def content (ps : List Piece) : List Char := ps.flatMap Piece.meaning

def hasControl (ps : List Piece) : Bool := ps.any Piece.isControl

@[simp] theorem content_nil : content [] = [] := rfl

@[simp] theorem content_cons (piece : Piece) (ps : List Piece) :
    content (piece :: ps) = piece.meaning ++ content ps := rfl

@[simp] theorem hasControl_nil : hasControl [] = false := rfl

@[simp] theorem hasControl_cons (piece : Piece) (ps : List Piece) :
    hasControl (piece :: ps) = (piece.isControl || hasControl ps) := rfl

def reports (ps : List Piece) (pos : Position) : List Diagnostic :=
  if hasControl ps then [.located pos (.literal .controlCharacter) .warning] else []

theorem Piece.visible_meaning (piece : Piece) : ∀ c ∈ piece.meaning, 32 ≤ c.toNat := by
  have hcontrol {c : Char} (h : ¬CharClass.isControl c = true) : 32 ≤ c.toNat := by
    simpa [CharClass.isControl] using h
  cases piece with
  | plain d hd =>
    rw [meaning]
    split_ifs with hctl
    · simp
    · simpa using hcontrol hctl
  | pair d hd =>
    rw [meaning]
    split_ifs with hquote hctl
    · simp
    · simp
    · simpa using hcontrol hctl

/-- A literal never stands for a control character, not even if it holds one. -/
theorem visible_content (ps : List Piece) : ∀ c ∈ content ps, 32 ≤ c.toNat := by
  induction ps with
  | nil => simp
  | cons piece ps ih =>
    rw [content_cons]
    exact List.forall_mem_append.2 ⟨piece.visible_meaning, ih⟩

theorem isControl_quote : CharClass.isControl '"' = false := by decide

/-- A scan put behind pieces that were scanned before. -/
def putBehind (ps : List Piece) (s : Scan) : Scan :=
  ⟨content ps ++ s.content, hasControl ps || s.hasControl, s.stop, s.cursor⟩

/-- Scanning takes piece after piece, whatever comes behind them. -/
theorem scan_append (ps : List Piece) (rest : List Char) (p : Position) :
    scan false p (ps.flatMap Piece.text ++ rest) =
      putBehind ps (scan false (p.advance (ps.flatMap Piece.text)) rest) := by
  induction ps generalizing p with
  | nil => simp [putBehind]
  | cons piece ps ih =>
    cases piece with
    | plain c h =>
      obtain ⟨hn, hb, hq⟩ := h
      by_cases hc : CharClass.isControl c = true
      · simp [Piece.text, scan, hn, hb, hq, hc, ih, putBehind, Scan.markControl, Piece.meaning,
          Piece.isControl]
      · simp [Piece.text, scan, hn, hb, hq, hc, ih, putBehind, Scan.push, Piece.meaning,
          Piece.isControl]
    | pair c h =>
      by_cases hq : c = '"'
      · subst hq
        simp [Piece.text, scan, ih, putBehind, Scan.push, Piece.meaning, Piece.isControl,
          isControl_quote]
      · by_cases hc : CharClass.isControl c = true
        · simp [Piece.text, scan, h, hq, hc, ih, putBehind, Scan.push, Scan.markControl,
            Piece.meaning, Piece.isControl]
        · simp [Piece.text, scan, h, hq, hc, ih, putBehind, Scan.push, Piece.meaning,
            Piece.isControl]

theorem scan_pieces (ps : List Piece) (rest : List Char) (p : Position) :
    scan false p (ps.flatMap Piece.text ++ '"' :: rest) =
      ⟨content ps, hasControl ps, .quote, ⟨'"' :: rest, p.advance (ps.flatMap Piece.text)⟩⟩ := by
  simp [scan_append, scan, putBehind]

theorem reads_pieces (ps : List Piece) (rest : List Char) :
    read.Reads (quotedText ps) rest (String.ofList (content ps)) (reports ps) := by
  intro pos
  have hs := scan_pieces ps rest (pos.step '"')
  simp [read, quotedText, hs, warnings, reports]

/-- A scan that meets the closing quote has gone over pieces only. Right after a backslash
the pair it opens is still to be counted. -/
theorem exists_pieces_of_scan {escaped : Bool} {p : Position} {cs : List Char}
    (h : (scan escaped p cs).stop = .quote) :
    ∃ (ps : List Piece) (rest : List Char),
      (if escaped then ['\\'] else []) ++ cs = ps.flatMap Piece.text ++ '"' :: rest := by
  induction cs generalizing escaped p with
  | nil => simp [scan] at h
  | cons c cs ih =>
    by_cases hn : c = '\n'
    · simp [scan, hn] at h
    · cases escaped with
      | true =>
        have h' : (scan false (p.step c) cs).stop = .quote := by
          revert h
          simp only [scan, hn]
          split_ifs <;> simp [Scan.push, Scan.markControl]
        obtain ⟨ps, rest, hps⟩ := ih h'
        exact ⟨.pair c hn :: ps, rest, by simpa [Piece.text] using hps⟩
      | false =>
        by_cases hb : c = '\\'
        · subst hb
          obtain ⟨ps, rest, hps⟩ := @ih true (p.step '\\') (by simpa [scan] using h)
          exact ⟨ps, rest, by simpa using hps⟩
        · by_cases hq : c = '"'
          · exact ⟨[], cs, by simp [hq]⟩
          · have h' : (scan false (p.step c) cs).stop = .quote := by
              revert h
              simp only [scan, hn, hb, hq]
              split_ifs <;> simp [Scan.push, Scan.markControl]
            obtain ⟨ps, rest, hps⟩ := ih h'
            exact ⟨.plain c ⟨hn, hb, hq⟩ :: ps, rest, by simpa [Piece.text] using hps⟩

theorem exists_pieces_of_read {c c' : Cursor} {s : String} {ds : List Diagnostic}
    (hc : c.current = some '"') (h : read c = (.success s ds, c')) :
    ∃ ps, c.rest = quotedText ps ++ c'.rest := by
  obtain ⟨_ | ⟨q, cs⟩, p⟩ := c
  · simp at hc
  · obtain rfl : q = '"' := by simpa using hc
    have hstop : (scan false (p.step '"') cs).stop = .quote := by
      rcases hs : (scan false (p.step '"') cs).stop
      · rfl
      · simp [read, hs] at h
      · simp [read, hs] at h
    obtain ⟨ps, rest, hps⟩ := exists_pieces_of_scan hstop
    replace hps : cs = ps.flatMap Piece.text ++ '"' :: rest := by simpa using hps
    have hread := reads_pieces ps rest p
    rw [show quotedText ps ++ rest = '"' :: cs by simp [quotedText, hps], h] at hread
    obtain ⟨-, rfl⟩ : _ ∧ c' = _ := by simpa using hread
    exact ⟨ps, by simp [quotedText, hps]⟩

end Literal
end ConfigBlock
