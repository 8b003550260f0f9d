import ConfigBlock.Proofs.PhysicalLines

/-!
# Progress line by line

A body is read in rounds, one for each line. A round that succeeds takes one physical line off the
text, whatever stands on it, and after one that fails there is no other. So the rounds can be
counted in advance: the physical lines that are left, and one more for the end of the text.
-/

namespace ConfigBlock

open ConfigBlock.Parser

theorem Position.offset_lt_advance (p : Position) {word : List Char} (h : word ≠ []) :
    p.offset < (p.advance word).offset := by
  obtain ⟨c, cs, rfl⟩ := List.exists_cons_of_ne_nil h
  have hpos : 0 < c.utf8Size := c.utf8Size_pos
  rw [advance_cons, advance_offset, step_offset]
  omega

namespace Line

theorem passes_of_read {c c' : Cursor} {l : Line} {ds : List Diagnostic}
    (h : read c = (.success l ds, c')) :
    ∃ line, physicalLines c.rest = line :: physicalLines c'.rest ∧ c.Passes line c' := by
  obtain ⟨line, hlines, hpasses, -⟩ := Cursor.physicalLines_rest (atEnd_of_read h)
  rw [skipLine_of_read h] at hlines hpasses
  exact ⟨line, hlines, hpasses⟩

theorem offset_lt_of_read {c c' : Cursor} {l : Line} {ds : List Diagnostic}
    (h : read c = (.success l ds, c')) : c.position.offset < c'.position.offset := by
  obtain ⟨line, -, hpasses⟩ := passes_of_read h
  have hne : line ≠ [] := by
    rintro rfl
    have hlt := length_read_lt h
    rw [hpasses.rest] at hlt
    simp at hlt
  rw [hpasses.position]
  exact c.position.offset_lt_advance hne

theorem passes_of_read_failure {c c' : Cursor} {ds : List Diagnostic}
    (h : read c = (.failure ds, c')) : ∃ word, c.Passes word c' ∧ '\n' ∉ word := by
  obtain ⟨text, p⟩ := c
  cases turns_read text with
  | @fails word rest rs hfinds =>
    have hread := hfinds.gives rest rfl p
    rw [h] at hread
    obtain ⟨-, rfl⟩ := Prod.mk.inj hread
    exact ⟨word, ⟨rfl, rfl⟩, hfinds.word_line⟩
  | @ends word rest l rs hword hremarks hgives =>
    have hread := hgives rest p
    rw [List.append_assoc, List.singleton_append, h] at hread
    simp [Finding.outcome] at hread
  | @breaksOff _ l rs hfinds =>
    have hread := hfinds.at_end p
    rw [h] at hread
    simp [Finding.outcome] at hread

end Line

namespace Body

/-- Read a body in a number of rounds, with one line read in each. There is no result if these
rounds are not enough. -/
def readWithin : Nat → Cursor → Option Body
  | 0, _ => none
  | rounds + 1, c =>
    match Line.read c with
    | (.failure ds, c') => some ⟨[], ds, false, c'⟩
    | (.success line ds, c') =>
      if line.closes then some ⟨[line], ds, true, c'⟩
      else (readWithin rounds c').map (·.cons line ds)

/-- One round for each physical line and one more are enough. -/
theorem readWithin_eq_some {rounds : Nat} {c : Cursor}
    (h : (physicalLines c.rest).length < rounds) : readWithin rounds c = some (read c) := by
  induction rounds generalizing c with
  | zero => omega
  | succ rounds ih =>
    rw [readWithin]
    rcases hread : Line.read c with ⟨⟨line, ds⟩ | ds, c'⟩
    · obtain ⟨text, hlines, -⟩ := Line.passes_of_read hread
      rw [hlines, List.length_cons] at h
      dsimp only
      rw [read_of_success hread, ih (by omega), Option.map_some]
      split_ifs <;> rfl
    · rw [read_of_failure hread]

end Body

namespace Block

/-- Read a body under a header in a number of rounds. -/
def readWithin (rounds : Nat) (h : Header) (c : Cursor) : Option (Outcome Block × Cursor) :=
  (Body.readWithin rounds c).map fun b => (ofBody h b, b.cursor)

theorem readWithin_eq_some {rounds : Nat} {c : Cursor} (h : Header)
    (hrounds : (physicalLines c.rest).length < rounds) :
    readWithin rounds h c = some (read h c) := by
  rw [readWithin, Body.readWithin_eq_some hrounds]
  rfl

end Block

/-- Reading a line either takes exactly the next physical line, as skipping it would, or fails
without having left it. Therefore a block is read, or given up, in at most as many rounds as there
are physical lines left, and one more. -/
theorem Line.read_progress (c : Cursor) :
    (∀ l ds c', read c = (.success l ds, c') →
        c.atEnd = false ∧ c' = c.skipLine ∧
          (∃ line, physicalLines c.rest = line :: physicalLines c'.rest ∧ c.Passes line c') ∧
          c.position.offset < c'.position.offset) ∧
      (∀ ds c', read c = (.failure ds, c') → ∃ word, c.Passes word c' ∧ '\n' ∉ word) ∧
      ∀ h rounds, (physicalLines c.rest).length + 1 ≤ rounds →
        Block.readWithin rounds h c = some (Block.read h c) := by
  refine ⟨?_, ?_, ?_⟩
  · intro l ds c' hread
    exact ⟨atEnd_of_read hread, (skipLine_of_read hread).symm, passes_of_read hread,
      offset_lt_of_read hread⟩
  · intro ds c' hread
    exact passes_of_read_failure hread
  · intro h rounds hrounds
    exact Block.readWithin_eq_some h hrounds

/-- Without a closing brace all the rounds are needed. -/
theorem Line.read_progress_unclosed :
    Block.readWithin 2 ⟨"b", []⟩ (.ofText "\na = 1\n") = none ∧
      Block.readWithin 3 ⟨"b", []⟩ (.ofText "\na = 1\n") =
        some (Block.read ⟨"b", []⟩ (.ofText "\na = 1\n")) := by
  constructor
  · decide +kernel
  · exact (read_progress _).2.2 _ _ (by decide +kernel)

end ConfigBlock
