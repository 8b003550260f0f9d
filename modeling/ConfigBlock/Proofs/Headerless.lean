import ConfigBlock.Proofs.PhysicalLines
import ConfigBlock.Proofs.Series

/-!
# Bodies without a header

In front of a body the search for a header looks at the first line that is neither blank nor a
comment. It goes by the first and the last character of that line, not by the grammar. A line of
a body with nothing to report starts with a word or a brace, and it ends in a value or a brace
that closes the block, so it is not taken for a header, with one exception: a comment behind an
entry may end in an opening brace. This is the only way to lose the first lines of a body.
-/

namespace ConfigBlock

open ConfigBlock.Parser

namespace WhiteSpace

theorem isWhite_of_isWord {c : Char} (h : CharClass.isWord c = true) : isWhite c = false := by
  have hword : 48 ≤ c.toNat ∧ c.toNat ≤ 57 ∨ 65 ≤ c.toNat ∧ c.toNat ≤ 122 := by
    simp only [CharClass.isWord, CharClass.isLetter, CharClass.isDigit, Bool.or_eq_true,
      Bool.and_eq_true, decide_eq_true_eq, beq_iff_eq, Char.le_def, UInt32.le_iff_toNat_le] at h
    rcases h with ((h | h) | h) | rfl
    · exact .inr ⟨le_trans (by decide) h.1, h.2⟩
    · exact .inr ⟨h.1, le_trans h.2 (by decide)⟩
    · exact .inl h
    · exact .inr (by decide)
  simp only [isWhite, ranges, List.any_cons, List.any_nil, Bool.or_false, Bool.or_eq_false_iff,
    Bool.and_eq_false_iff, decide_eq_false_iff_not]
  omega

theorem isWhite_newline : isWhite '\n' = true := by decide

/-- The last character that is not white. -/
def lastVisible (text : List Char) : Option Char := text.reverse.find? (!isWhite ·)

theorem lastVisible_append (a b : List Char) :
    lastVisible (a ++ b) = (lastVisible b).or (lastVisible a) := by
  simp [lastVisible]

theorem lastVisible_concat {c : Char} (h : isWhite c = false) (text : List Char) :
    lastVisible (text ++ [c]) = some c := by
  simp [lastVisible, h]

theorem lastVisible_eq_none {text : List Char} (h : ∀ c ∈ text, isWhite c = true) :
    lastVisible text = none := by
  simpa [lastVisible] using h

/-- What stands in front does not matter if something behind it is not white. -/
theorem lastVisible_append_of_mem {text : List Char} {c : Char} (hc : c ∈ text)
    (hvisible : isWhite c = false) (front : List Char) :
    lastVisible (front ++ text) = lastVisible text := by
  have hsome : (lastVisible text).isSome = true := by
    rw [lastVisible, List.find?_isSome]
    exact ⟨c, by simpa using hc, by simp [hvisible]⟩
  rw [lastVisible_append, Option.or_of_isSome hsome]

theorem lastVisible_dropWhile (text : List Char) :
    lastVisible (text.dropWhile isWhite) = lastVisible text := by
  have hfront : lastVisible (text.takeWhile isWhite) = none :=
    lastVisible_eq_none fun c hc => List.all_eq_true.1 List.all_takeWhile c hc
  conv_rhs => rw [← List.takeWhile_append_dropWhile (p := isWhite) (l := text)]
  rw [lastVisible_append, hfront, Option.or_none]

theorem getLast?_trim (text : List Char) : (trim text).getLast? = lastVisible text := by
  rw [trim, List.getLast?_reverse, ← List.find?_not_eq_head?_dropWhile]
  exact lastVisible_dropWhile text

theorem trim_append_white {c : Char} (h : isWhite c = true) (text : List Char) :
    trim (text ++ [c]) = trim text := by
  rw [trim_eq_rdropWhile, trim_eq_rdropWhile, List.dropWhile_append]
  split_ifs with hnil
  · rw [List.isEmpty_iff.1 hnil, List.dropWhile_cons_of_pos h, List.dropWhile_nil]
  · exact List.rdropWhile_concat_pos _ _ _ h

theorem trim_spaces_append (n : Nat) (text : List Char) : trim (spaces n ++ text) = trim text := by
  induction n with
  | zero => rfl
  | succ n ih => exact (trim_cons_space _).trans ih

theorem rdropWhile_cons {c : Char} (h : isWhite c = false) (text : List Char) :
    (c :: text).rdropWhile isWhite = c :: text.rdropWhile isWhite := by
  rw [List.rdropWhile, List.reverse_cons, List.dropWhile_append]
  split_ifs with hnil
  · simp_all [List.rdropWhile]
  · simp [List.rdropWhile]

/-- A text is cut only at its end if it starts with a character that stays. -/
theorem trim_cons {c : Char} (h : isWhite c = false) (text : List Char) :
    trim (c :: text) = c :: text.rdropWhile isWhite := by
  rw [trim_eq_rdropWhile, dropWhile_of_head (by simpa using h), rdropWhile_cons h]

end WhiteSpace

section LastVisible

open WhiteSpace

/-- The text has a last character that is not white, and this is no opening brace. -/
def EndsPlainly (text : List Char) : Prop := ∃ c ≠ '{', lastVisible text = some c

theorem EndsPlainly.append {text : List Char} (h : EndsPlainly text) (front : List Char) :
    EndsPlainly (front ++ text) := by
  obtain ⟨c, hc, hlast⟩ := h
  exact ⟨c, hc, by rw [lastVisible_append, hlast, Option.some_or]⟩

theorem EndsPlainly.append_white {text : List Char} (h : EndsPlainly text) {after : List Char}
    (hafter : ∀ c ∈ after, isWhite c = true) : EndsPlainly (text ++ after) := by
  obtain ⟨c, hc, hlast⟩ := h
  exact ⟨c, hc, by rw [lastVisible_append, lastVisible_eq_none hafter, Option.none_or, hlast]⟩

theorem EndsPlainly.concat {c : Char} (hvisible : isWhite c = false) (hc : c ≠ '{')
    (text : List Char) : EndsPlainly (text ++ [c]) :=
  ⟨c, hc, lastVisible_concat hvisible text⟩

theorem EndsPlainly.ne {text : List Char} (h : EndsPlainly text) :
    lastVisible text ≠ some '{' := by
  obtain ⟨c, hc, hlast⟩ := h
  simpa [hlast] using hc

theorem isWhite_of_mem_spaces {n : Nat} : ∀ c ∈ spaces n, isWhite c = true := by
  intro c hc
  rw [List.eq_of_mem_replicate hc]
  exact isWhite_space

theorem Numeral.endsPlainly_digits {ds : List Char} (hd : AllDigits ds) (hne : ds ≠ []) :
    EndsPlainly ds := by
  obtain ⟨front, last, rfl⟩ := (List.eq_nil_or_concat' ds).resolve_left hne
  have hdigit := hd last (by simp)
  have hword : CharClass.isWord last = true := by simp [CharClass.isWord, hdigit]
  refine .concat (isWhite_of_isWord hword) ?_ front
  rintro rfl
  exact absurd hdigit (by decide)

theorem Numeral.Form.endsPlainly_text (f : Form) : EndsPlainly f.text := by
  rw [text]
  cases hf : f.fraction with
  | none =>
    rw [fractionText, List.append_nil]
    exact (endsPlainly_digits f.whole_digits (f.integral hf).1).append _
  | some ds =>
    refine EndsPlainly.append ?_ _
    by_cases hds : ds = []
    · subst hds
      exact .concat (c := '.') (by decide) (by decide) []
    · exact (endsPlainly_digits (f.fraction_digits ds (by simp [hf])) hds).append ['.']

theorem Value.Form.endsPlainly_text (f : Form) : EndsPlainly f.text := by
  cases f with
  | literal ps => exact .concat (by decide) (by decide) _
  | env before ps after =>
    have hlast : EndsPlainly (spaces after ++ [')']) := .concat (by decide) (by decide) _
    exact ((hlast.append _).append _).append _
  | boolean truth letters h =>
    have hlast : (letters.map Char.toLower).getLast? = some 'e' := by
      rw [h]
      cases truth <;> rfl
    rw [List.getLast?_map, Option.map_eq_some_iff] at hlast
    obtain ⟨c, hc, hlower⟩ := hlast
    obtain ⟨front, rfl⟩ := List.getLast?_eq_some_iff.1 hc
    rcases (toLower_eq_iff (by decide)).1 hlower with rfl | rfl
    · exact .concat (by decide) (by decide) front
    · exact .concat (by decide) (by decide) front
  | numeral n => exact n.endsPlainly_text

theorem Closing.Form.endsPlainly_text {f : Form} {pos : Position} (h : f.reports pos = []) :
    EndsPlainly f.text := by
  cases f with
  | plain gap ending =>
    have hbreak : ∀ c ∈ ending.text, isWhite c = true := by
      cases ending <;> simp [Break.text, isWhite_newline]
    have hbrace : EndsPlainly ['}'] := .concat (by decide) (by decide) []
    exact hbrace.append_white (List.forall_mem_append.2 ⟨isWhite_of_mem_spaces, hbreak⟩)
  | skipped => simp [reports] at h

namespace Line.Form

/-- Whether a line holds no part of an entry and does not close the block. -/
def vacant : Form → Bool
  | .blank _ => true
  | .comment .. => true
  | .brace .. => false
  | .entry .. => false

/-- The line of an entry with a comment that ends in an opening brace. -/
def OpensInComment : Form → Prop
  | .entry _ f => ∃ g, f.ending = .comment g ∧ (trim g.text).getLast? = some '{'
  | _ => False

end Line.Form

/-- A comment behind an entry ends its line. -/
theorem Entry.Form.lastVisible_text {f : Form} {g : Comment.Form} (h : f.ending = .comment g) :
    lastVisible f.text = (trim g.text).getLast? := by
  obtain ⟨front, htext⟩ : ∃ front, f.text = front ++ g.text :=
    ⟨f.keyText ++ (spaces f.after ++ (f.value.text ++ spaces f.gap)), by
      simp [text, h, LineEnd.Form.text]⟩
  have hslash : '/' ∈ g.text := by cases g <;> simp [Comment.Form.text]
  rw [htext, lastVisible_append_of_mem hslash (by decide), getLast?_trim]

theorem Entry.Form.endsPlainly_text {f : Form} (h : ∀ g, f.ending ≠ .comment g) {pos : Position}
    (hquiet : f.reports pos = []) : EndsPlainly f.text := by
  have hvalue : EndsPlainly (f.value.text ++ (spaces f.gap ++ f.ending.text)) := by
    cases he : f.ending with
    | newline =>
      refine f.value.endsPlainly_text.append_white ?_
      have hnewline : ∀ c ∈ ['\n'], isWhite c = true := by simp [isWhite_newline]
      exact List.forall_mem_append.2 ⟨isWhite_of_mem_spaces, hnewline⟩
    | comment g => exact absurd he (h g)
    | closing g =>
      have hreports := (List.append_eq_nil_iff.1 hquiet).2
      rw [he] at hreports
      exact ((Closing.Form.endsPlainly_text hreports).append _).append _
  exact (hvalue.append _).append _

end LastVisible

namespace Header

open WhiteSpace

theorem role_congr {line line' : List Char} (h : trim line = trim line') :
    role line = role line' := by
  rw [role, role, h]

theorem role_vacant {f : Line.Form} (h : f.vacant = true) :
    ∃ doc, role f.text = .skipped doc := by
  cases f with
  | blank indent =>
    refine ⟨none, ?_⟩
    rw [Line.Form.text, role_congr (trim_spaces_append indent ['\n'])]
    decide
  | comment indent f =>
    have hslash : isWhite '/' = false := by decide
    obtain ⟨cs, hcs⟩ : ∃ cs, f.text = '/' :: '/' :: cs := by cases f <;> exact ⟨_, rfl⟩
    have htrim : trim (Line.Form.comment indent f).text =
        '/' :: '/' :: cs.rdropWhile isWhite := by
      rw [Line.Form.text, trim_spaces_append, hcs, trim_cons hslash, rdropWhile_cons hslash]
    rw [role, htrim]
    split_ifs with hdoc hremark
    · exact ⟨_, rfl⟩
    · exact ⟨_, rfl⟩
    · simp at hremark
    · simp at hremark
  | brace => simp [Line.Form.vacant] at h
  | entry => simp [Line.Form.vacant] at h

/-- A line that does not start with a slash is told apart by its last character. -/
theorem role_of_first {c : Char} (hwhite : isWhite c = false) (hslash : c ≠ '/') (indent : Nat)
    (cs : List Char) :
    role (spaces indent ++ c :: cs) =
      if lastVisible (c :: cs) = some '{' then
        .opening (String.ofList (lastWord (trim (c :: cs)).dropLast))
      else .other := by
  rw [← getLast?_trim, role_congr (trim_spaces_append indent _), role]
  simp [trim_cons hwhite, Ne.symm hslash]

theorem role_entry (indent : Nat) (f : Entry.Form) :
    role (Line.Form.entry indent f).text =
      if lastVisible f.text = some '{' then
        .opening (String.ofList (lastWord (trim f.text).dropLast))
      else .other :=
  role_of_first (isWhite_of_isWord f.first_word) (Line.isWord_ne f.first_word).2.1 indent _

/-- A comment behind an entry that ends in an opening brace makes its line a header. -/
theorem role_of_opensInComment {f : Line.Form} (h : f.OpensInComment) :
    ∃ name, role f.text = .opening name := by
  cases f with
  | entry indent f =>
    obtain ⟨g, hg, hbrace⟩ := h
    rw [← Entry.Form.lastVisible_text hg] at hbrace
    rw [role_entry, if_pos hbrace]
    exact ⟨_, rfl⟩
  | _ => exact absurd h not_false

/-- Other lines with nothing to report are not taken for headers. -/
theorem role_of_occupied {f : Line.Form} (h : f.vacant = false) (hopen : ¬f.OpensInComment)
    {pos : Position} (hquiet : f.reports pos = []) : role f.text = .other := by
  cases f with
  | blank => simp [Line.Form.vacant] at h
  | comment => simp [Line.Form.vacant] at h
  | brace indent f =>
    obtain ⟨cs, hcs⟩ : ∃ cs, f.text = '}' :: cs := by cases f <;> exact ⟨_, rfl⟩
    have hplain := Closing.Form.endsPlainly_text hquiet
    rw [hcs] at hplain
    rw [Line.Form.text, hcs, role_of_first (by decide) (by decide), if_neg hplain.ne]
  | entry indent f =>
    rw [role_entry, if_neg]
    by_cases hcomment : ∃ g, f.ending = .comment g
    · obtain ⟨g, hg⟩ := hcomment
      rw [Entry.Form.lastVisible_text hg]
      exact fun hbrace => hopen ⟨g, hg, hbrace⟩
    · exact (Entry.Form.endsPlainly_text (not_exists.1 hcomment) hquiet).ne

theorem skip_eq_none_iff (c : Cursor) : skip c = (none, c) ↔ seek? [] c = none := by
  rcases hseek : seek? [] c with _ | ⟨header, c'⟩ <;> simp [skip, hseek]

/-- The newline at the end of a physical line makes no difference to its part. -/
theorem exists_physicalLine_role {c : Cursor} (h : c.atEnd = false) :
    ∃ line, physicalLines c.rest = line :: physicalLines c.skipLine.rest ∧
      c.Passes line c.skipLine ∧ role line = role c.lineText := by
  obtain ⟨line, hlines, hpasses, hline⟩ := Cursor.physicalLines_rest h
  refine ⟨line, hlines, hpasses, ?_⟩
  rcases hline with rfl | rfl
  · rfl
  · exact role_congr (trim_append_white isWhite_newline _)

theorem skipLine_of_read {c c' : Cursor} {l : Line} {ds : List Diagnostic}
    (h : Line.read c = (.success l ds, c')) {word : List Char} (hword : c.rest = word ++ c'.rest) :
    c.skipLine = c' ∧ role c.lineText = role word := by
  have hskip := Line.skipLine_of_read h
  obtain ⟨line, -, hpasses, hrole⟩ := exists_physicalLine_role (Line.atEnd_of_read h)
  have hsame : line = word := by
    have hrest := hpasses.rest
    rw [hskip, hword] at hrest
    exact (List.append_cancel_right hrest).symm
  exact ⟨hskip, by rw [← hrole, hsame]⟩

theorem seek?_form (f : Line.Form) {rest : List Char} (h : f.Fits rest) (comments : List String)
    (p : Position) :
    seek? comments ⟨f.text ++ rest, p⟩ = match role f.text with
      | .skipped doc => seek? (comments ++ doc.toList) ⟨rest, p.advance f.text⟩
      | .opening name => some (⟨name, comments⟩, ⟨rest, p.advance f.text⟩)
      | .other => none := by
  have hread := f.reads h p
  obtain ⟨hskip, hrole⟩ := skipLine_of_read hread rfl
  have hstep := seek?_of_not_atEnd (Line.atEnd_of_read hread) comments
  rw [hskip, hrole] at hstep
  exact hstep

theorem seek?_vacant {fs : List Line.Form} (hfs : ∀ f ∈ fs, f.vacant = true)
    (comments : List String) (rest : List Char) (p : Position) :
    ∃ comments', seek? comments ⟨fs.flatMap Line.Form.text ++ rest, p⟩ =
      seek? comments' ⟨rest, p.advance (fs.flatMap Line.Form.text)⟩ := by
  induction fs generalizing comments p with
  | nil => exact ⟨comments, rfl⟩
  | cons f fs ih =>
    have hf := hfs f (by simp)
    obtain ⟨doc, hrole⟩ := role_vacant hf
    have hopen : f.closes = false := by cases f <;> simp_all [Line.Form.vacant, Line.Form.closes]
    have hfits := Line.Form.fits_of_open hopen (fs.flatMap Line.Form.text ++ rest)
    obtain ⟨comments', hrest⟩ := ih (fun g hg => hfs g (by simp [hg])) (comments ++ doc.toList)
      (p.advance f.text)
    refine ⟨comments', ?_⟩
    rw [List.flatMap_cons, List.append_assoc, seek?_form f hfits, hrole]
    simpa using hrest

end Header

namespace Body

/-- The first line of a body that is neither blank nor a comment is the line of an entry with a
comment that ends in an opening brace. -/
def OpensInComment (text : List Char) : Prop :=
  ∃ (fs : List Line.Form) (f : Line.Form) (rest : List Char),
    text = fs.flatMap Line.Form.text ++ (f.text ++ rest) ∧ (∀ x ∈ fs, x.vacant = true) ∧
      f.OpensInComment

/-- A body has a first line that is neither blank nor a comment, at the latest the one that
closes it. -/
theorem exists_occupied {xs : List Line.Form} (hxs : ∀ x ∈ xs, x.closes = false) {z : Line.Form}
    (hz : z.closes = true) {rest : List Char} (hr : z.Fits rest) :
    ∃ (fs : List Line.Form) (f : Line.Form) (rest' : List Char),
      xs.flatMap Line.Form.text ++ (z.text ++ rest) =
        fs.flatMap Line.Form.text ++ (f.text ++ rest') ∧
      (∀ x ∈ fs, x.vacant = true) ∧ f.vacant = false ∧ f.Fits rest' ∧ f ∈ xs ++ [z] := by
  induction xs with
  | nil =>
    have hvacant : z.vacant = false := by
      cases z <;> simp_all [Line.Form.vacant, Line.Form.closes]
    exact ⟨[], z, rest, rfl, by simp, hvacant, hr, by simp⟩
  | cons x xs ih =>
    by_cases hx : x.vacant = true
    · obtain ⟨fs, f, rest', htext, hfs, hf, hfits, hmem⟩ := ih fun y hy => hxs y (by simp [hy])
      refine ⟨x :: fs, f, rest', by simp [htext], ?_, hf, hfits, by simp_all⟩
      simpa [hx] using hfs
    · refine ⟨[], x, xs.flatMap Line.Form.text ++ (z.text ++ rest), by simp, by simp,
        by simpa using hx, Line.Form.fits_of_open (hxs x (by simp)) _, by simp⟩

theorem quiet_of_mem {fs : List Line.Form} {pos : Position}
    (h : Line.Form.reportsAll fs pos = []) : ∀ f ∈ fs, ∃ pos', f.reports pos' = [] := by
  induction fs generalizing pos with
  | nil => simp
  | cons f fs ih =>
    obtain ⟨hf, hfs⟩ := List.append_eq_nil_iff.1 h
    intro g hg
    rcases List.mem_cons.1 hg with rfl | hg
    · exact ⟨pos, hf⟩
    · exact ih hfs g hg

/-- A comment that ends in an opening brace is mistaken for a header. -/
theorem exists_seek?_of_opensInComment {text : List Char} (h : OpensInComment text)
    (p : Position) : ∃ found, Header.seek? [] ⟨text, p⟩ = some found := by
  obtain ⟨fs, f, rest, rfl, hfs, hopen⟩ := h
  have hfits : f.Fits rest := by
    cases f with
    | entry indent f =>
      obtain ⟨g, hg, -⟩ := hopen
      simp [Line.Form.Fits, hg, LineEnd.Form.Fits]
    | _ => exact absurd hopen not_false
  obtain ⟨comments, hseek⟩ := Header.seek?_vacant hfs [] (f.text ++ rest) p
  obtain ⟨name, hrole⟩ := Header.role_of_opensInComment hopen
  rw [hseek, Header.seek?_form f hfits, hrole]
  exact ⟨_, rfl⟩

/-- In front of a body with nothing to report the search finds a header only in a comment behind
the first entry. -/
theorem seek?_eq_none_iff {c : Cursor} (hclosed : (read c).closed = true)
    (hquiet : (read c).diagnostics = []) :
    Header.seek? [] c = none ↔ ¬OpensInComment c.rest := by
  constructor
  · intro hnone hopen
    obtain ⟨found, hfound⟩ := exists_seek?_of_opensInComment hopen c.position
    simp [hnone] at hfound
  · intro hopen
    obtain ⟨xs, z, hrest, hxs, hz, hfits⟩ := exists_forms_of_closed c hclosed
    have hforms := read_forms hxs hz hfits c.position
    rw [← hrest] at hforms
    have hreports : Line.Form.reportsAll (xs ++ [z]) c.position = [] := by
      rw [← hquiet, hforms]
    obtain ⟨fs, f, rest, htext, hfs, hf, hfrest, hmem⟩ := exists_occupied hxs hz hfits
    obtain ⟨pos, hfquiet⟩ := quiet_of_mem hreports f hmem
    have hrole := Header.role_of_occupied hf
      (fun h => hopen ⟨fs, f, rest, hrest.trans htext, hfs, h⟩) hfquiet
    obtain ⟨comments, hseek⟩ := Header.seek?_vacant hfs [] (f.text ++ rest) c.position
    rw [← htext, ← hrest] at hseek
    rw [hseek, Header.seek?_form f hfrest, hrole]

end Body

namespace Block

/-- A body with nothing to report is not taken for one with a header, and the next block is then
this body under no name, unless a comment behind its first entry ends in an opening brace. -/
theorem readNext_headerless {text name : String} {b : Block}
    (h : readText text ⟨name, []⟩ = .success b []) :
    (Header.skip (.ofText text) = (none, .ofText text) ↔ ¬Body.OpensInComment text.toList) ∧
      (Header.skip (.ofText text) = (none, .ofText text) →
        (readNext (.ofText text)).1 = .success { b with name := "" } []) := by
  have hbody : ofBody ⟨name, []⟩ (Body.read (.ofText text)) = .success b [] := h
  unfold ofBody at hbody
  split_ifs at hbody with hclosed
  obtain ⟨rfl, hquiet⟩ : ofLines ⟨name, []⟩ (Body.read (.ofText text)).lines = b ∧
      (Body.read (.ofText text)).diagnostics = [] := by
    simpa using hbody
  constructor
  · rw [Header.skip_eq_none_iff]
    exact Body.seek?_eq_none_iff hclosed hquiet
  · intro hskip
    simp [readNext, hskip, read, ofBody, hclosed, hquiet, ofLines, Header.unnamed]

/-- A blank line and an entry come first. -/
theorem readNext_headerless_plain :
    (readNext (.ofText "\na = 1\n\x7d\n")).1 =
      .success ⟨"", [⟨"a", .integer 1, []⟩], []⟩ [] := by
  have hread : readText "\na = 1\n\x7d\n" ⟨"db", []⟩ =
      .success ⟨"db", [⟨"a", .integer 1, []⟩], []⟩ [] := by
    decide +kernel
  exact (readNext_headerless hread).2 (by decide +kernel)

/-- The comment behind the only entry is taken for a header, and the entry is lost. -/
theorem entry_lost_to_comment :
    readText "a = 1 // \x7b\n\x7d\n" ⟨"db", []⟩ =
        .success ⟨"db", [⟨"a", .integer 1, []⟩], []⟩ [] ∧
      Header.skip (.ofText "a = 1 // \x7b\n\x7d\n") =
        (some ⟨"//", []⟩, ⟨['\x7d', '\n'], ⟨11, 2, 1⟩⟩) ∧
      (readNext (.ofText "a = 1 // \x7b\n\x7d\n")).1 = .success ⟨"//", [], []⟩ [] := by
  decide +kernel

end Block
end ConfigBlock
