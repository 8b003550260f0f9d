import ConfigBlock.Proofs.Surroundings
import Mathlib.Algebra.Group.Nat.Defs

/-!
# Sessions on one cursor

A cursor can be moved by single steps, by any of the readers and by the search for a header, in
any order, and it can be put back on a position that was recorded on the way. Whatever is done,
its position stays the one that the text in front of it gives: every move goes over text of the
document, and every recorded position belongs to a place in it. Only a return to a recorded
position takes the cursor back.
-/

namespace ConfigBlock

open ConfigBlock.Parser

namespace Cursor

theorem restore?_go_append (before rest : List Char) :
    restore?.go (before ++ rest) (String.ofList before).utf8ByteSize = some rest := by
  induction before with
  | nil => simp [restore?.go]
  | cons c cs ih =>
    have hpos : 0 < c.utf8Size := c.utf8Size_pos
    obtain ⟨n, hn⟩ : ∃ n, (String.ofList (c :: cs)).utf8ByteSize = n + 1 := by
      rw [Position.utf8ByteSize_ofList_cons]
      exact ⟨c.utf8Size + (String.ofList cs).utf8ByteSize - 1, by omega⟩
    have hsize : n + 1 = c.utf8Size + (String.ofList cs).utf8ByteSize := by
      rw [← hn, Position.utf8ByteSize_ofList_cons]
    have hrest : n + 1 - c.utf8Size = (String.ofList cs).utf8ByteSize := by omega
    rw [hn, List.cons_append, restore?.go, if_pos (by omega), hrest, ih]

theorem restore?_of_reaches {text : List Char} {c : Cursor} (h : (ofChars text).Reaches c) :
    restore? text c.position = some c := by
  obtain ⟨before, htext, hposition⟩ := h
  replace htext : text = before ++ c.rest := htext
  have hoffset : c.position.offset = (String.ofList before).utf8ByteSize := by
    rw [hposition, Position.advance_offset]
    exact Nat.zero_add _
  rw [restore?, hoffset, htext, restore?_go_append]
  rfl

theorem restore_of_rejected {c : Cursor} {text : List Char} {p : Position}
    (h : (c.restore text p).1 = false) : c.restore text p = (false, c) := by
  unfold restore at h ⊢
  split at h
  · simp at h
  · rfl

end Cursor

/-- The ways to move a cursor on. -/
inductive Move where
  | advance
  | tryAdvance
  | skipSpaces
  | skipLine
  | skipHeader
  | literal
  | env
  | comment
  | numeral (start : Numeral.Start)
  | boolean (truth : Bool)
  | value
  | key (first : Char)
  | entry (first : Char)
  | line
  | block (header : Header)
  deriving DecidableEq, Repr

namespace Move

/-- Where a move leads. The readers that insist on their first character lead nowhere from
another one. -/
def perform? : Move → Cursor → Option Cursor
  | .advance, c => some c.advance
  | .tryAdvance, c => some c.tryAdvance.2
  | .skipSpaces, c => some c.skipSpaces
  | .skipLine, c => some c.skipLine
  | .skipHeader, c => some (Header.skip c).2
  | .literal, c => (Literal.read.startingOn? '"' c).map (·.2)
  | .env, c => (Value.readEnv.startingOn? 'e' c).map (·.2)
  | .comment, c => (Comment.read.startingOn? '/' c).map (·.2)
  | .numeral start, c => some (Numeral.read start c).2
  | .boolean truth, c => some (Value.readBoolean truth c).2
  | .value, c => some (Value.read c).2
  | .key first, c => some (Key.read first c).2
  | .entry first, c => some (Entry.read first c).2
  | .line, c => some (Line.read c).2
  | .block header, c => some (Block.read header c).2

end Move

theorem Parser.Moves.reaches_startingOn? {α : Type} {p : Parser α} (hp : p.Moves) {first : Char}
    {c c' : Cursor} (h : (p.startingOn? first c).map (·.2) = some c') : c.Reaches c' := by
  unfold startingOn? at h
  split_ifs at h with hfirst
  · obtain rfl : (p c).2 = c' := by simpa using h
    exact hp c
  · simp at h

theorem Move.reaches_perform? {m : Move} {c c' : Cursor} (h : m.perform? c = some c') :
    c.Reaches c' := by
  cases m with
  | literal => exact Literal.moves_read.reaches_startingOn? h
  | env => exact Value.moves_readEnv.reaches_startingOn? h
  | comment => exact Comment.shrinks_read.moves.reaches_startingOn? h
  | advance => exact Option.some.inj h ▸ c.reaches_advance
  | tryAdvance => exact Option.some.inj h ▸ c.reaches_advance
  | skipSpaces => exact Option.some.inj h ▸ c.reaches_skipSpaces
  | skipLine => exact Option.some.inj h ▸ c.reaches_skipLine
  | skipHeader => exact Option.some.inj h ▸ Header.reaches_skip c
  | numeral start => exact Option.some.inj h ▸ Numeral.moves_read start c
  | boolean truth => exact Option.some.inj h ▸ Value.moves_readBoolean truth c
  | value => exact Option.some.inj h ▸ Value.moves_read c
  | key first => exact Option.some.inj h ▸ (Key.shrinks_read first).moves c
  | entry first => exact Option.some.inj h ▸ (Entry.shrinks_read first).moves c
  | line => exact Option.some.inj h ▸ Line.moves_read c
  | block header => exact Option.some.inj h ▸ Block.moves_read header c

inductive Operation where
  | move (m : Move)
  | record
  | restore (p : Position)
  deriving DecidableEq, Repr

/-- A text, a cursor in it, and the positions that were recorded. -/
structure Session where
  text : String
  cursor : Cursor
  recorded : List Position
  deriving DecidableEq, Repr

namespace Session

def start (text : String) : Session := ⟨text, .ofText text, []⟩

/-- The session after an operation. There is none if a reader does not stand on its first
character, or if a position is restored that the text has but the session has not recorded. -/
def step? (s : Session) : Operation → Option Session
  | .move m => (m.perform? s.cursor).map fun c => { s with cursor := c }
  | .record => some { s with recorded := s.cursor.position :: s.recorded }
  | .restore p =>
    let (accepted, c) := s.cursor.restore s.text.toList p
    if accepted ∧ p ∉ s.recorded then none else some { s with cursor := c }

def run? (s : Session) : List Operation → Option Session
  | [] => some s
  | op :: ops => (s.step? op).bind (·.run? ops)

/-- The cursor and all recorded positions are places of the text. -/
structure Consistent (s : Session) : Prop where
  cursor : (Cursor.ofText s.text).Reaches s.cursor
  recorded : ∀ p ∈ s.recorded, ∃ c : Cursor, (Cursor.ofText s.text).Reaches c ∧ c.position = p

theorem consistent_start (text : String) : (start text).Consistent :=
  ⟨.refl _, by simp [start]⟩

theorem Consistent.restore {s : Session} (h : s.Consistent) {p : Position} (hp : p ∈ s.recorded) :
    ∃ c, s.cursor.restore s.text.toList p = (true, c) ∧ (Cursor.ofText s.text).Reaches c ∧
      c.position = p := by
  obtain ⟨c, hc, rfl⟩ := h.recorded p hp
  have hback := Cursor.restore?_of_reaches (c := c) hc
  exact ⟨c, by simp [Cursor.restore, hback], hc, rfl⟩

/-- What an operation can do: move the cursor on, record its position, stay where it is because
a position is rejected, or go back to a recorded position. -/
theorem step?_cases {s s' : Session} {op : Operation} (h : s.step? op = some s') :
    (∃ m c, op = .move m ∧ s.cursor.Reaches c ∧ s' = { s with cursor := c }) ∨
      (op = .record ∧ s' = { s with recorded := s.cursor.position :: s.recorded }) ∨
      (∃ p, op = .restore p ∧ (s.cursor.restore s.text.toList p).1 = false ∧ s' = s) ∨
      (∃ p ∈ s.recorded, op = .restore p ∧
        s' = { s with cursor := (s.cursor.restore s.text.toList p).2 }) := by
  cases op with
  | move m =>
    obtain ⟨c, hc, rfl⟩ := Option.map_eq_some_iff.1 h
    exact .inl ⟨m, c, rfl, Move.reaches_perform? hc, rfl⟩
  | record => exact .inr (.inl ⟨rfl, (Option.some.inj h).symm⟩)
  | restore p =>
    cases haccepted : (s.cursor.restore s.text.toList p).1 with
    | false =>
      have hstay := Cursor.restore_of_rejected haccepted
      obtain rfl : s = s' := by simpa [step?, hstay] using h
      exact .inr (.inr (.inl ⟨p, rfl, haccepted, rfl⟩))
    | true =>
      by_cases hp : p ∈ s.recorded
      · have hs' : { s with cursor := (s.cursor.restore s.text.toList p).2 } = s' := by
          simpa [step?, hp] using h
        exact .inr (.inr (.inr ⟨p, hp, rfl, hs'.symm⟩))
      · simp [step?, haccepted, hp] at h

theorem Consistent.step {s s' : Session} {op : Operation} (h : s.Consistent)
    (hstep : s.step? op = some s') : s'.Consistent ∧ s'.text = s.text := by
  rcases step?_cases hstep with ⟨m, c, -, hreach, rfl⟩ | ⟨-, rfl⟩ | ⟨p, -, -, rfl⟩ |
    ⟨p, hp, -, rfl⟩
  · exact ⟨⟨h.cursor.trans hreach, h.recorded⟩, rfl⟩
  · refine ⟨⟨h.cursor, ?_⟩, rfl⟩
    intro q hq
    rcases List.mem_cons.1 hq with rfl | hq
    · exact ⟨s.cursor, h.cursor, rfl⟩
    · exact h.recorded q hq
  · exact ⟨h, rfl⟩
  · obtain ⟨c, hrestore, hc, -⟩ := h.restore hp
    exact ⟨⟨by simpa [hrestore] using hc, h.recorded⟩, rfl⟩

theorem Consistent.run {s s' : Session} {ops : List Operation} (h : s.Consistent)
    (hrun : s.run? ops = some s') : s'.Consistent ∧ s'.text = s.text := by
  induction ops generalizing s with
  | nil =>
    obtain rfl : s = s' := Option.some.inj hrun
    exact ⟨h, rfl⟩
  | cons op ops ih =>
    obtain ⟨t, hstep, hrest⟩ := Option.bind_eq_some_iff.1 hrun
    obtain ⟨ht, htext⟩ := h.step hstep
    obtain ⟨hs', htext'⟩ := ih ht hrest
    exact ⟨hs', htext'.trans htext⟩

end Session

/-- The cursor stands between two characters of the text, and its position counts what is in
front of it: the bytes, the lines begun and the characters of the last line. -/
def Cursor.Counts (text : String) (c : Cursor) : Prop :=
  ∃ before after : String, text = before ++ after ∧ c.rest = after.toList ∧
    c.position.offset = before.utf8ByteSize ∧
    c.position.line = 1 + before.toList.count '\n' ∧
    c.position.column = 1 + (lastLine before.toList).length

theorem Cursor.counts_of_reaches {text : String} {c : Cursor} (h : (ofText text).Reaches c) :
    c.Counts text := by
  obtain ⟨before, htext, hposition⟩ := h
  replace htext : text.toList = before ++ c.rest := htext
  replace hposition : c.position = Position.origin.advance before := hposition
  refine ⟨String.ofList before, String.ofList c.rest, ?_, ?_, ?_, ?_, ?_⟩
  · rw [← String.ofList_append, ← htext, String.ofList_toList]
  · rw [String.toList_ofList]
  · rw [hposition, Position.advance_offset]
    exact Nat.zero_add _
  · rw [hposition, Position.advance_line, String.toList_ofList]
    rfl
  · rw [hposition, Position.column_advance_origin, String.toList_ofList]

/-- What is unread of a text determines the cursor. -/
theorem Cursor.Counts.eq_of_rest {text : String} {c c' : Cursor} (h : c.Counts text)
    (h' : c'.Counts text) (hrest : c.rest = c'.rest) : c = c' := by
  obtain ⟨rest, offset, line, column⟩ := c
  obtain ⟨rest', offset', line', column'⟩ := c'
  obtain ⟨before, after, rfl, rfl, rfl, rfl, rfl⟩ := h
  obtain ⟨before', after', htext, rfl, rfl, rfl, rfl⟩ := h'
  obtain rfl : after = after' := String.toList_inj.1 hrest
  obtain rfl : before = before' := by
    have hlist := congrArg String.toList htext
    rw [String.toList_append, String.toList_append] at hlist
    exact String.toList_inj.1 (List.append_cancel_right hlist)
  rfl

theorem Cursor.counts_iff_reaches {text : String} {c : Cursor} :
    c.Counts text ↔ (ofText text).Reaches c := by
  constructor
  · intro hcounts
    have ⟨before, after, htext, hrest, _⟩ := hcounts
    have hreaches : (ofText text).Reaches ⟨after.toList, Position.origin.advance before.toList⟩ :=
      ⟨before.toList, by simp [ofText, ofChars, htext], rfl⟩
    have hsame := hcounts.eq_of_rest (counts_of_reaches hreaches) hrest
    rw [hsame]
    exact hreaches
  · exact counts_of_reaches

theorem Cursor.Counts.of_reaches {text : String} {c c' : Cursor} (h : c.Counts text)
    (hreaches : c.Reaches c') : c'.Counts text :=
  counts_of_reaches ((counts_iff_reaches.1 h).trans hreaches)

theorem length_le_utf8ByteSize (cs : List Char) : cs.length ≤ (String.ofList cs).utf8ByteSize := by
  induction cs with
  | nil => simp
  | cons c cs ih =>
    have hpos : 0 < c.utf8Size := c.utf8Size_pos
    rw [Position.utf8ByteSize_ofList_cons, List.length_cons]
    omega

/-- The newlines of a text and the characters behind the last of them are different ones. -/
theorem count_add_length_lastLine_le (cs : List Char) :
    cs.count '\n' + (lastLine cs).length ≤ cs.length := by
  induction cs using List.reverseRecOn with
  | nil => simp [lastLine]
  | append_singleton cs c ih =>
    by_cases hc : c = '\n'
    · have hcount : cs.count '\n' ≤ cs.length := List.count_le_length
      simp [lastLine, hc]
      omega
    · have hlast : lastLine (cs ++ [c]) = lastLine cs ++ [c] := by
        simp [lastLine, hc]
      simp [hlast, hc]
      omega

theorem Cursor.Counts.line_add_column_le {text : String} {c : Cursor} (h : c.Counts text) :
    c.position.offset ≤ text.utf8ByteSize ∧
      c.position.line + c.position.column ≤ c.position.offset + 2 := by
  obtain ⟨before, after, rfl, -, hoffset, hline, hcolumn⟩ := h
  have hsize := length_le_utf8ByteSize before.toList
  have hcount := count_add_length_lastLine_le before.toList
  rw [String.ofList_toList] at hsize
  rw [hoffset, hline, hcolumn, String.utf8ByteSize_append]
  omega

theorem Cursor.Reaches.offset_le {c c' : Cursor} (h : c.Reaches c') :
    c.position.offset ≤ c'.position.offset := by
  obtain ⟨word, -, hposition⟩ := h
  rw [hposition, Position.advance_offset]
  omega

namespace Session

/-- After any sequence of operations the position is the one that the text in front of the
cursor gives, and no count can wrap at 64 bits. A position that is rejected leaves the cursor
where it is, one that was recorded is restored exactly, and whatever is not a return to a position
never goes back. -/
theorem run_counts {text : String} {ops : List Operation} {s : Session}
    (hrun : (start text).run? ops = some s) :
    s.cursor.Counts text ∧ s.cursor.position.offset ≤ text.utf8ByteSize ∧
      s.cursor.position.line + s.cursor.position.column ≤ s.cursor.position.offset + 2 ∧
      (text.utf8ByteSize < 2 ^ 63 → s.cursor.position.offset < UInt64.size ∧
        s.cursor.position.line < UInt64.size ∧ s.cursor.position.column < UInt64.size) ∧
      (∀ p ∈ s.recorded, ∃ s', s.step? (.restore p) = some s' ∧ s'.cursor.position = p) ∧
      ∀ op s', s.step? op = some s' →
        ((∀ p, op ≠ .restore p) → s.cursor.position.offset ≤ s'.cursor.position.offset) ∧
        ∀ p, op = .restore p → (s.cursor.restore text.toList p).1 = false →
          s'.cursor.position = s.cursor.position := by
  obtain ⟨hs, htext⟩ := (consistent_start text).run hrun
  replace htext : s.text = text := htext
  have hcounts : s.cursor.Counts text := Cursor.counts_of_reaches (htext ▸ hs.cursor)
  obtain ⟨hoffset, hsum⟩ := hcounts.line_add_column_le
  refine ⟨hcounts, hoffset, hsum, ?_, ?_, ?_⟩
  · intro hsize
    have hlimit : UInt64.size = 2 ^ 64 := rfl
    omega
  · intro p hp
    obtain ⟨c, hrestore, -, hposition⟩ := hs.restore hp
    exact ⟨{ s with cursor := c }, by simp [step?, hrestore, hp], hposition⟩
  · intro op s' hstep
    constructor
    · intro hmove
      rcases step?_cases hstep with ⟨m, c, -, hreach, rfl⟩ | ⟨-, rfl⟩ | ⟨p, hop, -⟩ | ⟨p, -, hop, -⟩
      · exact hreach.offset_le
      · exact Nat.le_refl _
      · exact absurd hop (hmove p)
      · exact absurd hop (hmove p)
    · rintro p rfl hrejected
      rw [← htext] at hrejected
      have hstay := Cursor.restore_of_rejected hrejected
      obtain rfl : s = s' := by simpa [step?, hstay] using hstep
      rfl

/-- A session with a character of two bytes: a literal, a header and a block are read, a position
inside the first character is rejected, and the one behind it is returned to. -/
theorem run_counts_return :
    ∃ s : Session, (start "é //\n\"q\" \x7b\n a = 1\n\x7d\n").run?
        [.move .advance, .record, .move .skipLine, .move .literal, .restore ⟨1, 1, 1⟩,
          .move .skipHeader, .move (.block ⟨"b", []⟩), .restore ⟨2, 1, 2⟩] = some s ∧
      s.cursor.position = ⟨2, 1, 2⟩ ∧ s.cursor.Counts "é //\n\"q\" \x7b\n a = 1\n\x7d\n" ∧
      ∀ s', s.step? (.restore ⟨1, 1, 1⟩) = some s' → s'.cursor.position = s.cursor.position := by
  have hrun : (start "é //\n\"q\" \x7b\n a = 1\n\x7d\n").run?
      [.move .advance, .record, .move .skipLine, .move .literal, .restore ⟨1, 1, 1⟩,
        .move .skipHeader, .move (.block ⟨"b", []⟩), .restore ⟨2, 1, 2⟩] =
      some ⟨"é //\n\"q\" \x7b\n a = 1\n\x7d\n",
        ⟨" //\n\"q\" \x7b\n a = 1\n\x7d\n".toList, ⟨2, 1, 2⟩⟩, [⟨2, 1, 2⟩]⟩ := by
    decide +kernel
  obtain ⟨hcounts, -, -, -, -, hsteps⟩ := run_counts hrun
  exact ⟨_, hrun, rfl, hcounts, fun s' hstep => (hsteps _ s' hstep).2 _ rfl (by decide +kernel)⟩

end Session
end ConfigBlock
