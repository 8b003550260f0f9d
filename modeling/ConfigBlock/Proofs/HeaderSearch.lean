import ConfigBlock.Proofs.Headerless
import ConfigBlock.Proofs.Session

/-!
# The search for a header

The search goes over whole lines, and it is only at the last of them that it knows whether there
is a header. What it finds is described here by the physical lines of the text alone: lines that
are blank or comments, and then a line that ends in an opening brace. If the text does not start
so, the cursor is where it was, however far the search has gone.
-/

namespace ConfigBlock

namespace WhiteSpace

/-- The words of a text, in order. -/
def words (text : List Char) : List (List Char) := (text.splitOnP isWhite).filter (· ≠ [])

theorem words_append_white {c : Char} (h : isWhite c = true) (front back : List Char) :
    words (front ++ c :: back) = words front ++ words back := by
  rw [words, List.splitOnP_append_cons front back h, List.filter_append]
  rfl

theorem words_nil : words [] = [] := by
  simp [words]

theorem words_of_visible {word : List Char} (hne : word ≠ [])
    (hword : ∀ c ∈ word, isWhite c = false) : words word = [word] := by
  rw [words, List.splitOnP_eq_singleton hword]
  simp [hne]

theorem lastWord_append_white {c : Char} (h : isWhite c = true) (text : List Char) :
    lastWord (text ++ [c]) = lastWord text := by
  simp [lastWord, h]

/-- A word at the end of a text with white space in front of it is the last one. -/
theorem lastWord_append_word {front word : List Char} (hne : word ≠ [])
    (hword : ∀ c ∈ word, isWhite c = false) (hfront : ∀ c ∈ front.getLast?, isWhite c = true) :
    lastWord (front ++ word) = word := by
  have hfirst : ∀ c ∈ (word.reverse ++ front.reverse).head?, isWhite c = false := by
    intro c hc
    rw [List.head?_append_of_ne_nil _ (by simpa using hne)] at hc
    exact hword c (List.mem_reverse.1 (List.mem_of_mem_head? hc))
  have hall : ∀ c ∈ word.reverse, (!isWhite c) = true := by
    intro c hc
    simp [hword c (List.mem_reverse.1 hc)]
  have hstop : front.reverse.takeWhile (!isWhite ·) = [] := by
    cases hlast : front.reverse with
    | nil => rfl
    | cons c cs =>
      have hc : isWhite c = true := hfront c (by simp [← List.head?_reverse, hlast])
      simp [hc]
  rw [lastWord, List.reverse_append, dropWhile_of_head hfirst,
    List.takeWhile_append_of_pos hall, hstop, List.append_nil, List.reverse_reverse]

theorem lastWord_append_eq (front word : List Char)
    (hword : ∀ c ∈ word, isWhite c = false) :
    lastWord (front ++ word) = (words (front ++ word)).getLast?.getD [] := by
  -- The word at the end grows by the characters in front of it, up to white space.
  induction front using List.reverseRecOn generalizing word with
  | nil =>
    by_cases hne : word = []
    · simp [hne, words_nil]
    · rw [lastWord_append_word hne hword (by simp), List.nil_append, words_of_visible hne hword]
      rfl
  | append_singleton front c ih =>
    rw [List.append_assoc, List.singleton_append]
    by_cases hc : isWhite c = true
    · rw [words_append_white hc]
      by_cases hne : word = []
      · have hfront := ih [] (by simp)
        rw [List.append_nil] at hfront
        rw [hne, lastWord_append_white hc, words_nil, List.append_nil]
        exact hfront
      · rw [List.append_cons, lastWord_append_word hne hword (by simp [hc]),
          words_of_visible hne hword]
        simp
    · apply ih
      intro d hd
      rcases List.mem_cons.1 hd with rfl | hd
      · simpa using hc
      · exact hword d hd

theorem lastWord_eq (text : List Char) : lastWord text = (words text).getLast?.getD [] := by
  have h := lastWord_append_eq text [] (by simp)
  rwa [List.append_nil] at h

end WhiteSpace

namespace Header

open WhiteSpace

/-- A line that may stand above a header: it is blank or a comment. -/
def Passed (line : List Char) : Prop := trim line = [] ∨ ['/', '/'] <+: trim line

instance : DecidablePred Passed := fun line =>
  inferInstanceAs (Decidable (trim line = [] ∨ ['/', '/'] <+: trim line))

def doc? (line : List Char) : Option String :=
  if ['/', '/', '/'] <+: trim line then some (String.ofList (trim ((trim line).drop 3))) else none

/-- A line that is no comment and ends in an opening brace, with the last word before it. -/
def Opens (line : List Char) (name : String) : Prop :=
  ¬['/', '/'] <+: trim line ∧ ∃ front, trim line = front ++ ['{'] ∧
    name = String.ofList ((words front).getLast?.getD [])

/-- Lines that start with a header: those that are passed over, the one that opens the block, and
the later ones. -/
structure Heads (lines skipped : List (List Char)) (opening : List Char)
    (later : List (List Char)) (name : String) : Prop where
  lines : lines = skipped ++ opening :: later
  skipped : ∀ line ∈ skipped, Passed line
  opening : Opens opening name

theorem Opens.not_passed {line : List Char} {name : String} (h : Opens line name) :
    ¬Passed line := by
  obtain ⟨hcomment, front, hfront, -⟩ := h
  rintro (hblank | hpassed)
  · simp [hfront] at hblank
  · exact hcomment hpassed

theorem role_eq_skipped_iff {line : List Char} {doc : Option String} :
    role line = .skipped doc ↔ Passed line ∧ doc = doc? line := by
  simp only [role, List.isPrefixOf_iff_prefix]
  split_ifs with hdoc hpassed hbrace
  · have hpassed : Passed line := .inr (List.IsPrefix.trans (by decide) hdoc)
    simp [doc?, hdoc, hpassed, eq_comm]
  · have hpassed : Passed line := hpassed
    simp [doc?, hdoc, hpassed, eq_comm]
  · have hpassed : ¬Passed line := hpassed
    simp [hpassed]
  · have hpassed : ¬Passed line := hpassed
    simp [hpassed]

theorem role_eq_opening_iff {line : List Char} {name : String} :
    role line = .opening name ↔ Opens line name := by
  simp only [role, List.isPrefixOf_iff_prefix]
  split_ifs with hdoc hpassed hbrace
  · have hpassed : Passed line := .inr (List.IsPrefix.trans (by decide) hdoc)
    simpa using fun h : Opens line name => h.not_passed hpassed
  · simpa using fun h : Opens line name => h.not_passed hpassed
  · obtain ⟨front, hfront⟩ := List.getLast?_eq_some_iff.1 hbrace
    have hcomment : ¬['/', '/'] <+: trim line := fun h => hpassed (.inr h)
    have hname : (trim line).dropLast = front := by rw [hfront, List.dropLast_concat]
    rw [hname, lastWord_eq]
    constructor
    · intro h
      exact ⟨hcomment, front, hfront, (Role.opening.inj h).symm⟩
    · rintro ⟨-, front', hfront', rfl⟩
      rw [hfront'] at hfront
      rw [List.append_cancel_right hfront]
  · have hopens : ¬Opens line name := by
      rintro ⟨-, front, hfront, -⟩
      simp [hfront] at hbrace
    simpa using hopens

theorem not_heads_nil {skipped later : List (List Char)} {opening : List Char} {name : String} :
    ¬Heads [] skipped opening later name := by
  intro h
  simpa using h.lines

theorem heads_cons_iff {line opening : List Char} {lines skipped later : List (List Char)}
    {name : String} :
    Heads (line :: lines) skipped opening later name ↔
      (skipped = [] ∧ opening = line ∧ later = lines ∧ Opens line name) ∨
        ∃ skipped', skipped = line :: skipped' ∧ Passed line ∧
          Heads lines skipped' opening later name := by
  constructor
  · rintro ⟨hlines, hskipped, hopening⟩
    cases skipped with
    | nil =>
      obtain ⟨rfl, rfl⟩ := List.cons.inj hlines
      exact .inl ⟨rfl, rfl, rfl, hopening⟩
    | cons line' skipped' =>
      obtain ⟨rfl, hrest⟩ := List.cons.inj hlines
      obtain ⟨hline, hskipped'⟩ := List.forall_mem_cons.1 hskipped
      exact .inr ⟨skipped', rfl, hline, hrest, hskipped', hopening⟩
  · rintro (⟨rfl, rfl, rfl, hopening⟩ | ⟨skipped', rfl, hline, hlines, hskipped, hopening⟩)
    · exact ⟨rfl, by simp, hopening⟩
    · exact ⟨by rw [hlines, List.cons_append], List.forall_mem_cons.2 ⟨hline, hskipped⟩, hopening⟩

theorem filterMap_doc?_cons (line : List Char) (lines : List (List Char)) :
    (line :: lines).filterMap doc? = (doc? line).toList ++ lines.filterMap doc? := by
  cases hdoc : doc? line <;> simp [hdoc]

theorem seek?_eq_some_iff {comments : List String} {c c' : Cursor} {header : Header} :
    seek? comments c = some (header, c') ↔
      ∃ skipped opening later, Heads (physicalLines c.rest) skipped opening later header.name ∧
        header.comments = comments ++ skipped.filterMap doc? ∧
        c.Passes (skipped.flatten ++ opening) c' := by
  fun_induction seek? comments c with
  | case1 comments c hend =>
    have hnil : c.rest = [] := List.isEmpty_iff.1 hend
    simp [hnil, physicalLines, not_heads_nil]
  | case2 comments c hend doc hrole ih =>
    obtain ⟨line, hlines, hpasses, hsame⟩ := exists_physicalLine_role (by simpa using hend)
    obtain ⟨hpassed, rfl⟩ := role_eq_skipped_iff.1 (hsame.trans hrole)
    rw [ih, hlines]
    constructor
    · rintro ⟨skipped, opening, later, hheads, hcomments, hrest⟩
      refine ⟨line :: skipped, opening, later, ?_, ?_, ?_⟩
      · exact heads_cons_iff.2 (.inr ⟨skipped, rfl, hpassed, hheads⟩)
      · rw [hcomments, filterMap_doc?_cons, List.append_assoc]
      · rw [List.flatten_cons, List.append_assoc]
        exact (hpasses.append_iff _).2 hrest
    · rintro ⟨skipped, opening, later, hheads, hcomments, hrest⟩
      rcases heads_cons_iff.1 hheads with ⟨-, -, -, hopens⟩ | ⟨skipped, rfl, -, hheads⟩
      · exact absurd hpassed hopens.not_passed
      · refine ⟨skipped, opening, later, hheads, ?_, ?_⟩
        · rw [hcomments, filterMap_doc?_cons, List.append_assoc]
        · rw [List.flatten_cons, List.append_assoc] at hrest
          exact (hpasses.append_iff _).1 hrest
  | case3 comments c hend name hrole =>
    obtain ⟨line, hlines, hpasses, hsame⟩ := exists_physicalLine_role (by simpa using hend)
    have hopens := role_eq_opening_iff.1 (hsame.trans hrole)
    rw [hlines]
    constructor
    · intro hfound
      obtain ⟨rfl, rfl⟩ := Prod.mk.inj (Option.some.inj hfound)
      refine ⟨[], line, physicalLines c.skipLine.rest, ?_, by simp, hpasses⟩
      exact heads_cons_iff.2 (.inl ⟨rfl, rfl, rfl, hopens⟩)
    · rintro ⟨skipped, opening, later, hheads, hcomments, hrest⟩
      rcases heads_cons_iff.1 hheads with ⟨rfl, rfl, -, hopens'⟩ | ⟨-, -, hpassed, -⟩
      · have hname : header.name = name := by
          have hrole' := role_eq_opening_iff.2 hopens'
          rw [hsame, hrole] at hrole'
          exact (Role.opening.inj hrole').symm
        have hcursor : c' = c.skipLine := hrest.unique hpasses
        rw [List.filterMap_nil, List.append_nil] at hcomments
        rw [hcursor, ← hname, ← hcomments]
      · exact absurd hpassed hopens.not_passed
  | case4 comments c hend hrole =>
    obtain ⟨line, hlines, hpasses, hsame⟩ := exists_physicalLine_role (by simpa using hend)
    rw [hlines]
    constructor
    · intro hfound
      simp at hfound
    · rintro ⟨skipped, opening, later, hheads, -⟩
      rcases heads_cons_iff.1 hheads with ⟨-, -, -, hopens⟩ | ⟨-, -, hpassed, -⟩
      · simp [role_eq_opening_iff.2 hopens, hrole] at hsame
      · simp [role_eq_skipped_iff.2 ⟨hpassed, rfl⟩, hrole] at hsame

/-- The search, with the cursor where it stops looking. -/
def search (comments : List String) (c : Cursor) : Option Header × Cursor :=
  if _h : c.atEnd = true then (none, c)
  else
    match role c.lineText with
    | .skipped doc => search (comments ++ doc.toList) c.skipLine
    | .opening name => (some ⟨name, comments⟩, c.skipLine)
    | .other => (none, c.skipLine)
termination_by c.rest.length
decreasing_by exact Cursor.length_skipLine_lt (by simpa using _h)

theorem seek?_eq_search (comments : List String) (c : Cursor) :
    seek? comments c = (search comments c).1.map (·, (search comments c).2) := by
  fun_induction search comments c with
  | case1 comments c hend => rw [seek?_of_atEnd hend, Option.map_none]
  | case2 comments c hend doc hrole ih =>
    rw [seek?_of_not_atEnd (by simpa using hend), hrole]
    exact ih
  | case3 comments c hend name hrole =>
    rw [seek?_of_not_atEnd (by simpa using hend), hrole]
    rfl
  | case4 comments c hend hrole =>
    rw [seek?_of_not_atEnd (by simpa using hend), hrole]
    rfl

theorem reaches_search (comments : List String) (c : Cursor) :
    c.Reaches (search comments c).2 := by
  fun_induction search comments c with
  | case1 comments c hend => exact .refl c
  | case2 comments c hend doc hrole ih => exact c.reaches_skipLine.trans ih
  | case3 comments c hend name hrole => exact c.reaches_skipLine
  | case4 comments c hend hrole => exact c.reaches_skipLine

/-- A search that finds nothing stands behind the lines it has looked at, and the position it
started from leads back to where it was. -/
theorem restore_search {text : String} {c : Cursor} (h : c.Counts text)
    (hnone : seek? [] c = none) :
    ∃ c', search [] c = (none, c') ∧ c.Reaches c' ∧
      c'.restore text.toList c.position = (true, c) := by
  rw [seek?_eq_search, Option.map_eq_none_iff] at hnone
  refine ⟨(search [] c).2, Prod.ext hnone rfl, reaches_search [] c, ?_⟩
  have hback := Cursor.restore?_of_reaches (Cursor.counts_iff_reaches.1 h)
  rw [Cursor.restore, hback]

theorem skip_of_heads {text : String} {c : Cursor} (hc : c.Counts text)
    {skipped later : List (List Char)} {opening : List Char} {name : String}
    (h : Heads (physicalLines c.rest) skipped opening later name) :
    ∃ c', skip c = (some ⟨name, skipped.filterMap doc?⟩, c') ∧ c'.rest = later.flatten ∧
      c'.Counts text := by
  have hpasses : c.Passes (skipped.flatten ++ opening)
      ⟨later.flatten, c.position.advance (skipped.flatten ++ opening)⟩ := by
    refine ⟨?_, rfl⟩
    rw [← flatten_physicalLines c.rest, h.lines]
    simp
  have hseek : seek? [] c = some (⟨name, skipped.filterMap doc?⟩, _) :=
    seek?_eq_some_iff.2 ⟨skipped, opening, later, h, rfl, hpasses⟩
  exact ⟨_, by rw [skip, hseek], rfl, hc.of_reaches hpasses.reaches⟩

theorem skip_of_not_heads {text : String} {c : Cursor} (hc : c.Counts text)
    (h : ¬∃ skipped opening later name, Heads (physicalLines c.rest) skipped opening later name) :
    skip c = (none, c) ∧ ∃ c', search [] c = (none, c') ∧ c.Reaches c' ∧
      c'.restore text.toList c.position = (true, c) := by
  have hnone : seek? [] c = none := by
    rw [Option.eq_none_iff_forall_ne_some]
    rintro ⟨header, c'⟩ hseek
    obtain ⟨skipped, opening, later, hheads, -⟩ := seek?_eq_some_iff.1 hseek
    exact h ⟨skipped, opening, later, header.name, hheads⟩
  exact ⟨(skip_eq_none_iff c).2 hnone, restore_search hc hnone⟩

/-- From every cursor that counts what is in front of it, the search finds a header exactly if the
lines from there on start with one. It then has the documentation comments among the lines above
it and the last word before the brace, and the cursor is behind the line with the brace. In every
other case the cursor is put back where it was. -/
theorem skip_iff_heads {text : String} {c : Cursor} (hc : c.Counts text) :
    ((skip c).1.isSome = true ↔ ∃ skipped opening later name,
        Heads (physicalLines c.rest) skipped opening later name) ∧
      (∀ skipped opening later name, Heads (physicalLines c.rest) skipped opening later name →
        ∃ c', skip c = (some ⟨name, skipped.filterMap doc?⟩, c') ∧ c'.rest = later.flatten ∧
          c'.Counts text) ∧
      ((¬∃ skipped opening later name, Heads (physicalLines c.rest) skipped opening later name) →
        skip c = (none, c) ∧ ∃ c', search [] c = (none, c') ∧ c.Reaches c' ∧
          c'.restore text.toList c.position = (true, c)) := by
  refine ⟨⟨?_, ?_⟩, fun _ _ _ _ => skip_of_heads hc, skip_of_not_heads hc⟩
  · intro hsome
    by_contra hother
    rw [(skip_of_not_heads hc hother).1] at hsome
    simp at hsome
  · rintro ⟨skipped, opening, later, name, hheads⟩
    obtain ⟨c', hskip, -⟩ := skip_of_heads hc hheads
    rw [hskip]
    rfl

/-- From the middle of a line a header with wide spaces is found at the end of the text. Without
the brace the search comes back from there. -/
theorem skip_iff_heads_wide_spaces :
    (∃ c', skip ⟨"/// é\u2003\n\u00a0\n// n\nkind\u2003db \x7b".toList, ⟨2, 1, 2⟩⟩ =
        (some ⟨"db", ["é"]⟩, c') ∧ c'.rest = [] ∧
        c'.Counts "é/// é\u2003\n\u00a0\n// n\nkind\u2003db \x7b") ∧
      skip ⟨"// n\nkind\u2003db".toList, ⟨2, 1, 2⟩⟩ =
        (none, ⟨"// n\nkind\u2003db".toList, ⟨2, 1, 2⟩⟩) := by
  constructor
  · have hcounts : Cursor.Counts "é/// é\u2003\n\u00a0\n// n\nkind\u2003db \x7b"
        ⟨"/// é\u2003\n\u00a0\n// n\nkind\u2003db \x7b".toList, ⟨2, 1, 2⟩⟩ :=
      ⟨"é", "/// é\u2003\n\u00a0\n// n\nkind\u2003db \x7b", by decide +kernel⟩
    have hheads : Heads (physicalLines "/// é\u2003\n\u00a0\n// n\nkind\u2003db \x7b".toList)
        ["/// é\u2003\n".toList, "\u00a0\n".toList, "// n\n".toList] "kind\u2003db \x7b".toList []
        "db" :=
      ⟨by decide +kernel, by decide +kernel, by decide +kernel, "kind\u2003db ".toList,
        by decide +kernel⟩
    exact (skip_iff_heads hcounts).2.1 _ _ _ _ hheads
  · have hcounts : Cursor.Counts "é// n\nkind\u2003db" ⟨"// n\nkind\u2003db".toList, ⟨2, 1, 2⟩⟩ :=
      ⟨"é", "// n\nkind\u2003db", by decide +kernel⟩
    have hnone : (skip ⟨"// n\nkind\u2003db".toList, ⟨2, 1, 2⟩⟩).1.isSome = false := by
      decide +kernel
    refine ((skip_iff_heads hcounts).2.2 fun hheads => ?_).1
    rw [(skip_iff_heads hcounts).1.2 hheads] at hnone
    simp at hnone

end Header
end ConfigBlock
