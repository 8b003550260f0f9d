import ConfigBlock.Proofs.Form.Literal
import Mathlib.Tactic.ByContra

/-!
# Splitting a literal into its pieces

What stands behind an opening quote is split from the left, one piece after the other, as long
as a piece comes next. Nothing else is needed to say what a literal is read as: if the split
stops at a quote, the literal is over and its content is the meanings of the pieces; if it stops
anywhere else, the line ends before the literal does, perhaps right behind a backslash.
-/

namespace ConfigBlock

namespace Cursor

/-- The newline that ends the current line, or the end of the text. -/
def lineEnd (c : Cursor) : Cursor := c.skipWhile (!CharClass.isNewline ·)

theorem lineEnd_append {word : List Char} (hw : '\n' ∉ word) (rest : List Char) (p : Position) :
    (mk (word ++ rest) p).lineEnd = (mk rest (p.advance word)).lineEnd :=
  skipWhile_append_of_all (isNewline_eq_false hw) rest p

@[simp] theorem lineEnd_nil (p : Position) : (mk [] p).lineEnd = ⟨[], p⟩ := rfl

@[simp] theorem lineEnd_newline (rest : List Char) (p : Position) :
    (mk ('\n' :: rest) p).lineEnd = ⟨'\n' :: rest, p⟩ := rfl

end Cursor

namespace Literal

/-- The piece that a text starts with, and the text behind it. -/
def piece? : List Char → Option (Piece × List Char)
  | [] => none
  | c :: cs =>
    if h : c ≠ '\n' ∧ c ≠ '\\' ∧ c ≠ '"' then some (.plain c h, cs)
    else if c = '\\' then
      match cs with
      | [] => none
      | d :: ds => if h : d ≠ '\n' then some (.pair d h, ds) else none
    else none

theorem eq_append_of_piece? {cs rest : List Char} {piece : Piece}
    (h : piece? cs = some (piece, rest)) : cs = piece.text ++ rest := by
  revert h
  fun_cases piece? cs with
  | case1 => simp
  | case2 c cs hplain =>
    rintro ⟨⟩
    rfl
  | case3 => simp
  | case4 d ds hpair =>
    rintro ⟨⟩
    rfl
  | case5 => simp
  | case6 => simp

theorem Piece.length_text_pos (piece : Piece) : 0 < piece.text.length := by
  cases piece <;> simp [Piece.text]

theorem length_lt_of_piece? {cs rest : List Char} {piece : Piece}
    (h : piece? cs = some (piece, rest)) : rest.length < cs.length := by
  have hpos := piece.length_text_pos
  rw [eq_append_of_piece? h, List.length_append]
  omega

/-- The pieces that a text starts with, as many as there are, and the text behind them. -/
def split (cs : List Char) : List Piece × List Char :=
  match _h : piece? cs with
  | none => ([], cs)
  | some (piece, rest) => (piece :: (split rest).1, (split rest).2)
termination_by cs.length
decreasing_by all_goals exact length_lt_of_piece? _h

theorem split_append (cs : List Char) :
    (split cs).1.flatMap Piece.text ++ (split cs).2 = cs := by
  fun_induction split cs with
  | case1 cs hnone => simp
  | case2 cs piece rest hsome ih =>
    rw [List.flatMap_cons, List.append_assoc, ih, eq_append_of_piece? hsome]

/-- The split goes on as long as it can. -/
theorem piece?_split (cs : List Char) : piece? (split cs).2 = none := by
  fun_induction split cs with
  | case1 cs hnone => exact hnone
  | case2 cs piece rest hsome ih => exact ih

theorem Piece.newline_notMem_text (piece : Piece) : '\n' ∉ piece.text := by
  cases piece with
  | plain c h => simpa [Piece.text] using h.1.symm
  | pair c h => simpa [Piece.text] using h.symm

theorem newline_notMem_pieces (ps : List Piece) : '\n' ∉ ps.flatMap Piece.text := by
  intro h
  obtain ⟨piece, -, hmem⟩ := List.mem_flatMap.1 h
  exact piece.newline_notMem_text hmem

/-- Without a piece and without a quote the line has nothing left but perhaps a backslash. -/
theorem unfinished_of_piece? {cs : List Char} (hpiece : piece? cs = none)
    (hquote : cs.head? ≠ some '"') :
    ∃ dangling rest, cs = dangling ++ rest ∧ (dangling = [] ∨ dangling = ['\\']) ∧
      (rest = [] ∨ ∃ later, rest = '\n' :: later) := by
  revert hpiece hquote
  fun_cases piece? cs with
  | case1 => exact fun _ _ => ⟨[], [], rfl, .inl rfl, .inl rfl⟩
  | case2 => simp
  | case3 => exact fun _ _ => ⟨['\\'], [], rfl, .inr rfl, .inl rfl⟩
  | case4 => simp
  | case5 d ds hpair =>
    obtain rfl : d = '\n' := by simpa using hpair
    exact fun _ _ => ⟨['\\'], '\n' :: ds, rfl, .inr rfl, .inr ⟨ds, rfl⟩⟩
  | case6 c cs hplain hbackslash =>
    intro _ hquote
    obtain rfl : c = '\n' := by
      by_contra hnewline
      exact hplain ⟨hnewline, hbackslash, by simpa using hquote⟩
    exact ⟨[], '\n' :: cs, rfl, .inl rfl, .inr ⟨cs, rfl⟩⟩

/-- Where the split stops short of a quote, the scan goes on to the end of the line and keeps
nothing, not even a backslash that it meets there. -/
theorem scan_unfinished {cs : List Char} (hpiece : piece? cs = none)
    (hquote : cs.head? ≠ some '"') (p : Position) :
    scan false p cs = ⟨[], false, if (Cursor.mk cs p).lineEnd.atEnd then .endOfText else .newline,
      (Cursor.mk cs p).lineEnd⟩ := by
  obtain ⟨dangling, rest, rfl, hdangling, hrest⟩ := unfinished_of_piece? hpiece hquote
  have hword : '\n' ∉ dangling := by
    rcases hdangling with rfl | rfl <;> decide
  rw [Cursor.lineEnd_append hword]
  rcases hdangling with rfl | rfl
  · rcases hrest with rfl | ⟨later, rfl⟩ <;> simp [scan, Cursor.atEnd]
  · rcases hrest with rfl | ⟨later, rfl⟩ <;> simp [scan, Cursor.atEnd]

/-- On an opening quote, the pieces behind it decide. If they lead to a quote, their meanings are
the content and the cursor stops just behind that quote. If not, reading fails where the line
ends. Control characters among the pieces are reported once, at the opening quote and in front of
the error. -/
theorem read_split {c : Cursor} (hc : c.current = some '"') :
    let ps := (split c.advance.rest).1
    let rest := (split c.advance.rest).2
    (∀ behind, rest = '"' :: behind →
      c.rest = quotedText ps ++ behind ∧
        read c = (.success (String.ofList (content ps)) (reports ps c.position),
          ⟨behind, c.position.advance (quotedText ps)⟩)) ∧
    (rest.head? ≠ some '"' →
      read c = (.failure (reports ps c.position ++
          [c.lineEnd.error (.literal (if c.lineEnd.atEnd then .endOfText else .newline))]),
        c.lineEnd)) := by
  intro ps rest
  have htext : c.rest = '"' :: (ps.flatMap Piece.text ++ rest) := by
    rw [split_append, ← Cursor.rest_eq_cons hc]
  constructor
  · intro behind hbehind
    have hquoted : c.rest = quotedText ps ++ behind := by
      simp [htext, hbehind, quotedText]
    have hread := reads_pieces ps behind c.position
    rw [← hquoted] at hread
    exact ⟨hquoted, hread⟩
  · intro hquote
    have hword : '\n' ∉ '"' :: ps.flatMap Piece.text := by
      simpa using newline_notMem_pieces ps
    have hline := Cursor.lineEnd_append hword rest c.position
    rw [List.cons_append, ← htext] at hline
    have hscan : scan false (c.position.step '"') (ps.flatMap Piece.text ++ rest) =
        putBehind ps ⟨[], false, if c.lineEnd.atEnd then .endOfText else .newline, c.lineEnd⟩ := by
      rw [scan_append, scan_unfinished (piece?_split _) hquote, hline]
      rfl
    have hread : read c = read ⟨'"' :: (ps.flatMap Piece.text ++ rest), c.position⟩ := by
      rw [← htext]
    rw [hread]
    by_cases hend : c.lineEnd.atEnd = true
    · simp [read, hscan, putBehind, hend, warnings, reports]
    · simp [read, hscan, putBehind, hend, warnings, reports]

/-- A literal with each kind of piece in it, and one that is broken off by a newline behind a
backslash. -/
theorem read_split_both :
    read (.ofText "\"é\\\x1b\\\"\t\\\\\" b") =
        (.success "é\\\"\\\\" [⟨.literal .controlCharacter, 1, 1, .warning⟩],
          ⟨[' ', 'b'], ⟨11, 1, 11⟩⟩) ∧
      read (.ofText "\"\t\\\nb\"") =
        (.failure [⟨.literal .controlCharacter, 1, 1, .warning⟩, ⟨.literal .newline, 1, 4, .error⟩],
          ⟨['\n', 'b', '"'], ⟨3, 1, 4⟩⟩) := by
  constructor
  · have hsplit := read_split (c := .ofText "\"é\\\x1b\\\"\t\\\\\" b") (by decide +kernel)
    rw [(hsplit.1 [' ', 'b'] (by decide +kernel)).2]
    decide +kernel
  · have hsplit := read_split (c := .ofText "\"\t\\\nb\"") (by decide +kernel)
    rw [hsplit.2 (by decide +kernel)]
    decide +kernel

end Literal
end ConfigBlock
