import ConfigBlock.Block.Header
import ConfigBlock.Proofs.Guarded.Readers
import ConfigBlock.Proofs.PhysicalLines

/-!
# No check ever fails

Blocks and headers are read on a machine by two loops over lines. From every machine that comes
about on a text by stepping on and by returning to recorded positions, all readers run to their
end: whatever the text holds, each cut is between two characters, each count is a word, and each
reader that insists on its first character is started on it. What they give is what the readers
on cursors give.
-/

namespace ConfigBlock

open ConfigBlock.Guarded (Follows)

namespace Body

/-- The lines of a body behind those already read, if it is closed. -/
def collect (lines : List Line) : Parser (List Line) := fun c =>
  ((read c).outcome.map (lines ++ ·), (read c).cursor)

def collectStep (lines : List Line) : Parser (List Line ⊕ List Line) := do
  let line ← Line.read
  pure (if line.closes then .inr (lines ++ [line]) else .inl (lines ++ [line]))

theorem length_collectStep_lt {lines lines' : List Line} {c c' : Cursor} {ds : List Diagnostic}
    (h : collectStep lines c = (.success (.inl lines') ds, c')) :
    c'.rest.length < c.rest.length := by
  obtain ⟨line, hline, -⟩ := Parser.bind_pure_eq_success.1 h
  exact Line.length_read_lt hline

theorem collect_of_repeats {lines : List Line} {c c' : Cursor} {o : Outcome (List Line)}
    (h : Parser.Repeats collectStep lines c o c') : collect lines c = (o, c') := by
  induction h with
  | @done lines c c' all ds h =>
    obtain ⟨line, hline, hall⟩ := Parser.bind_pure_eq_success.1 h
    split_ifs at hall with hcloses
    obtain rfl : all = lines ++ [line] := Sum.inr.inj hall
    rw [collect, read_of_success hline, if_pos hcloses]
    rfl
  | @failed lines c c' ds h =>
    rcases hline : Line.read c with ⟨⟨line, ds'⟩ | ds', c''⟩
    · rw [collectStep, Parser.bind_of_success hline] at h
      simp at h
    · rw [collectStep, Parser.bind_of_failure hline] at h
      obtain ⟨rfl, rfl⟩ : ds' = ds ∧ c'' = c' := by simpa using h
      rw [collect, read_of_failure hline]
      rfl
  | @again lines lines' c c' c'' o ds h hrest ih =>
    obtain ⟨line, hline, hlines⟩ := Parser.bind_pure_eq_success.1 h
    split_ifs at hlines with hcloses
    obtain rfl : lines' = lines ++ [line] := Sum.inl.inj hlines
    obtain ⟨rfl, rfl⟩ : _ = o ∧ _ = c'' := Prod.mk.inj ih
    rw [collect, read_of_success hline, if_neg hcloses, outcome_cons, Outcome.map_withLeading]
    cases (read c').outcome with
    | success later es => simp [Outcome.map, cons]
    | failure es => simp [Outcome.map, cons]

end Body

open ConfigBlock.Parser in
theorem Block.read_eq_collect (h : Header) : read h = (do
    let lines ← Body.collect []
    pure (ofLines h lines)) := by
  funext c
  rw [read, ofBody_eq_map, bind_pure_comp, map_eq, Body.collect]
  cases (Body.read c).outcome with
  | success lines ds => rfl
  | failure ds => rfl

namespace Guarded

def collectStep (lines : List Line) : Guarded (List Line ⊕ List Line) := do
  let line ← line
  pure (if line.closes then .inr (lines ++ [line]) else .inl (lines ++ [line]))

def block (h : Header) : Guarded Block := do
  let lines ← loop collectStep []
  pure (Block.ofLines h lines)

theorem follows_block (h : Header) : Follows (block h) (Block.read h) := by
  have hstep (lines : List Line) : Follows (collectStep lines) (Body.collectStep lines) :=
    follows_line.bind fun _ => .pure _
  rw [Block.read_eq_collect]
  exact (Follows.loop hstep Body.length_collectStep_lt Body.collect_of_repeats []).bind
    fun _ => .pure _

end Guarded

namespace Header

/-- What a line in front of a block leads to: the comments with which the search goes on, or its
result. -/
def next (comments : List String) (line : List Char) : List String ⊕ Option Header :=
  match role line with
  | .skipped doc => .inl (comments ++ doc.toList)
  | .opening name => .inr (some ⟨name, comments⟩)
  | .other => .inr none

def seekStep (comments : List String) : Parser (List String ⊕ Option Header) := do
  let ended ← Parser.atEnd
  if ended then pure (.inr none)
  else
    let line ← Parser.skipLine
    pure (next comments line)

theorem seekStep_eq (comments : List String) (c : Cursor) :
    seekStep comments c = if c.atEnd then (.success (.inr none) [], c)
      else (.success (next comments c.lineText) [], c.skipLine) := by
  have hended : Parser.atEnd c = (.success c.atEnd [], c) := rfl
  rw [seekStep, Parser.bind_of_success hended]
  split_ifs <;> simp

theorem length_seekStep_lt {comments comments' : List String} {c c' : Cursor}
    {ds : List Diagnostic} (h : seekStep comments c = (.success (.inl comments') ds, c')) :
    c'.rest.length < c.rest.length := by
  rw [seekStep_eq] at h
  split_ifs at h with hend
  · simp at h
  · obtain ⟨-, rfl⟩ : _ ∧ c.skipLine = c' := by simpa using h
    exact Cursor.length_skipLine_lt (by simpa using hend)

theorem seek?_eq_next {c : Cursor} (h : c.atEnd = false) (comments : List String) :
    seek? comments c = match next comments c.lineText with
      | .inl comments' => seek? comments' c.skipLine
      | .inr result => result.map (·, c.skipLine) := by
  rw [seek?_of_not_atEnd h, next]
  cases role c.lineText <;> rfl

theorem seek?_of_repeats {comments : List String} {c c' : Cursor} {o : Outcome (Option Header)}
    (h : Parser.Repeats seekStep comments c o c') :
    o = .success ((seek? comments c).map (·.1)) [] ∧
      ∀ found, seek? comments c = some found → found.2 = c' := by
  induction h with
  | @done comments c c' result ds h =>
    rw [seekStep_eq] at h
    split_ifs at h with hend
    · obtain ⟨⟨rfl, rfl⟩, -⟩ : (none = result ∧ [] = ds) ∧ c = c' := by simpa using h
      simp [seek?_of_atEnd hend]
    · obtain ⟨⟨hnext, rfl⟩, rfl⟩ :
          (next comments c.lineText = .inr result ∧ [] = ds) ∧ c.skipLine = c' := by
        simpa using h
      rw [seek?_eq_next (by simpa using hend), hnext]
      cases result with
      | none => simp
      | some header => simp
  | @failed comments c c' ds h =>
    rw [seekStep_eq] at h
    split_ifs at h with hend
    · simp at h
    · simp at h
  | @again comments comments' c c' c'' o ds h hrest ih =>
    rw [seekStep_eq] at h
    split_ifs at h with hend
    · simp at h
    · obtain ⟨⟨hnext, rfl⟩, rfl⟩ :
          (next comments c.lineText = .inl comments' ∧ [] = ds) ∧ c.skipLine = c' := by
        simpa using h
      rw [seek?_eq_next (by simpa using hend), hnext, Outcome.withLeading_nil]
      exact ih

end Header

namespace Guarded

def seekStep (comments : List String) : Guarded (List String ⊕ Option Header) := do
  let ended ← atEnd
  if ended then pure (.inr none)
  else
    let line ← skipLine
    pure (Header.next comments line)

theorem follows_seekStep (comments : List String) :
    Follows (seekStep comments) (Header.seekStep comments) := by
  apply Follows.atEnd.bind
  intro ended
  split_ifs
  · exact .pure _
  · exact Follows.skipLine.bind fun _ => .pure _

def skipHeader : Guarded (Option Header) := do
  let start ← position
  let found ← loop seekStep []
  match found with
  | some header => pure (some header)
  | none =>
    restore start
    pure none

theorem skipHeader_machine {text : String} (s : Place text) :
    skipHeader s.machine = some (.success (Header.skip s.cursor).1 [],
      ⟨text, (Header.skip s.cursor).2.position⟩) := by
  obtain ⟨o, s', hloop, hrepeats⟩ :=
    exists_repeats follows_seekStep Header.length_seekStep_lt [] s
  obtain ⟨rfl, hcursor⟩ := Header.seek?_of_repeats hrepeats
  have hstart : position s.machine = some (.success s.cursor.position [], s.machine) := rfl
  rw [skipHeader, bind_of_success hstart, bind_of_success hloop, Header.skip]
  cases hseek : Header.seek? [] s.cursor with
  | some found =>
    obtain ⟨header, c'⟩ := found
    obtain rfl : c' = s'.cursor := hcursor _ hseek
    rfl
  | none =>
    have hback : s'.machine.restore s.cursor.position = s.machine := s'.restore_machine s
    change some (Outcome.success none [], s'.machine.restore s.cursor.position) = _
    rw [hback]
    rfl

end Guarded

/-- The machines that come about on a text, by stepping on and by returning to the position of a
machine that came about before. -/
inductive Machine.Reachable (text : String) : Machine → Prop
  | start : Reachable text (.start text)
  | advance {m m' : Machine} (h : Reachable text m) (hrun : m.advance? = some m') :
      Reachable text m'
  | skipSpaces {m m' : Machine} {o : Outcome (Option Char)} (h : Reachable text m)
      (hrun : Guarded.skipSpaces m = some (o, m')) : Reachable text m'
  | skipLine {m m' : Machine} {o : Outcome (List Char)} (h : Reachable text m)
      (hrun : Guarded.skipLine m = some (o, m')) : Reachable text m'
  | restore {m saved : Machine} (h : Reachable text m) (hsaved : Reachable text saved) :
      Reachable text (m.restore saved.position)

theorem Machine.Reachable.exists_place {text : String} (hfits : text.utf8ByteSize < 2 ^ 63)
    {m : Machine} (h : m.Reachable text) : ∃ s : Place text, s.machine = m := by
  induction h with
  | start => exact ⟨⟨.ofText text, hfits, .refl _⟩, rfl⟩
  | advance h hrun ih =>
    obtain ⟨s, rfl⟩ := ih
    rw [s.advance?_machine] at hrun
    exact ⟨_, Option.some.inj hrun⟩
  | skipSpaces h hrun ih =>
    obtain ⟨s, rfl⟩ := ih
    obtain ⟨o, s', hrun', -⟩ := Follows.skipSpaces s
    rw [hrun'] at hrun
    exact ⟨s', (Prod.mk.inj (Option.some.inj hrun)).2⟩
  | skipLine h hrun ih =>
    obtain ⟨s, rfl⟩ := ih
    obtain ⟨o, s', hrun', -⟩ := Follows.skipLine s
    rw [hrun'] at hrun
    exact ⟨s', (Prod.mk.inj (Option.some.inj hrun)).2⟩
  | restore h hsaved ih ihsaved =>
    obtain ⟨s, rfl⟩ := ih
    obtain ⟨saved, rfl⟩ := ihsaved
    exact ⟨saved, (s.restore_machine saved).symm⟩

namespace Guarded

/-- The guarded reader runs to its end, with the outcome `r.1` and where the cursor `r.2` is. -/
def Returns {α : Type} (g : Guarded α) (m : Machine) (r : Outcome α × Cursor) : Prop :=
  g m = some (r.1, { m with position := r.2.position })

theorem FollowsAt.returns {α : Type} {text : String} {s : Place text} {g : Guarded α}
    {p : Parser α} (h : FollowsAt s g p) : Returns g s.machine (p s.cursor) := by
  obtain ⟨o, s', hrun, hparse⟩ := h
  rw [Returns, hrun, hparse]
  rfl

/-- On every text that fits the memory, from every machine that comes about on it, no reader is
aborted: a block under any header, a line, an entry from any first character, a value and the
search for a header all end as they do on the cursor at the position of the machine. -/
theorem readers_return {text : String} (hfits : text.utf8ByteSize < 2 ^ 63) {m : Machine}
    (hm : m.Reachable text) :
    ∃ c : Cursor, Cursor.restore? text.toList m.position = some c ∧
      (∀ h, Returns (block h) m (Block.read h c)) ∧
      Returns line m (Line.read c) ∧
      (∀ first, Returns (entry first) m (Entry.read first c)) ∧
      Returns value m (Value.read c) ∧
      Returns skipHeader m (.success (Header.skip c).1 [], (Header.skip c).2) := by
  obtain ⟨s, rfl⟩ := hm.exists_place hfits
  refine ⟨s.cursor, Cursor.restore?_of_reaches s.reached, ?_, ?_, ?_, ?_, ?_⟩
  · exact fun h => (follows_block h s).returns
  · exact (follows_line s).returns
  · exact fun first => (follows_entry first s).returns
  · exact (follows_value s).returns
  · exact skipHeader_machine s

/-- Inside a character of two bytes reading is aborted. Behind it, after a return, the line that
starts there is read to the end of the text. -/
theorem readers_return_behind_wide :
    value ⟨"éa = \"b\" ///é", ⟨1, 1, 1⟩⟩ = none ∧
    ∃ m : Machine, m.Reachable "éa = \"b\" ///é" ∧ m.position = ⟨2, 1, 2⟩ ∧
      Returns line m
        (.success ⟨.entry ⟨"a", .quoted "b", ["é"]⟩, .newline⟩ [], ⟨[], ⟨15, 1, 14⟩⟩) := by
  have hbehind : Machine.Reachable "éa = \"b\" ///é" ⟨"éa = \"b\" ///é", ⟨2, 1, 2⟩⟩ :=
    .advance .start (by decide +kernel)
  have hlater : Machine.Reachable "éa = \"b\" ///é" ⟨"éa = \"b\" ///é", ⟨3, 1, 3⟩⟩ :=
    hbehind.advance (by decide +kernel)
  obtain ⟨c, hc, -, hline, -⟩ := readers_return (by decide +kernel) (hlater.restore hbehind)
  have hcursor : Cursor.restore? "éa = \"b\" ///é".toList ⟨2, 1, 2⟩ =
      some ⟨"a = \"b\" ///é".toList, ⟨2, 1, 2⟩⟩ := by decide +kernel
  obtain rfl : (⟨"a = \"b\" ///é".toList, ⟨2, 1, 2⟩⟩ : Cursor) = c :=
    Option.some.inj (hcursor.symm.trans hc)
  exact ⟨rfl, _, hlater.restore hbehind, rfl, hline⟩

end Guarded
end ConfigBlock
