import ConfigBlock.Proofs.Escaping
import ConfigBlock.Proofs.Grammar
import Mathlib.Data.List.DropRight

/-!
# What can be written down

A block is legible if its keys are words, its strings are contents of literals, and its
comments stand on one line with no white space around them. Bare text becomes a literal in
writing: the normal form of a block says so. Everything that is read without dropping a
control character is legible and is its own normal form.
-/

namespace ConfigBlock

open ConfigBlock.Parser

namespace WhiteSpace

theorem trim_eq_rdropWhile (text : List Char) :
    trim text = (text.dropWhile isWhite).rdropWhile isWhite := rfl

theorem trim_cons_space (text : List Char) : trim (' ' :: text) = trim text := by
  have hspace : isWhite ' ' = true := by decide
  simp [trim, hspace]

theorem trim_trim (text : List Char) : trim (trim text) = trim text := by
  obtain ⟨after, hafter⟩ := List.rdropWhile_prefix isWhite (text.dropWhile isWhite)
  have hfront : (trim text).dropWhile isWhite = trim text := by
    cases htrim : trim text with
    | nil => rfl
    | cons c cs =>
      -- Cutting at the end leaves the first character, which is not white.
      have hhead : (text.dropWhile isWhite).head? = some c := by
        rw [← hafter, ← trim_eq_rdropWhile, htrim]
        rfl
      have hwhite := List.head?_dropWhile_not isWhite text
      simp_all
  rw [trim_eq_rdropWhile (trim text), hfront, trim_eq_rdropWhile, List.rdropWhile_idempotent]

end WhiteSpace

/-- The report of a control character that a literal left out. -/
def Diagnostic.DropsControl (d : Diagnostic) : Prop :=
  d.problem = .literal .controlCharacter ∨ d.problem = .env (.literal .controlCharacter)

/-- The value that the canonical form of a value stands for. -/
def Value.normal : Value → Value
  | .text s => .quoted s
  | v => v

def Entry.normal (e : Entry) : Entry := { e with value := e.value.normal }

def Block.normal (b : Block) : Block := { b with entries := b.entries.map Entry.normal }

/-- The strings of a value are contents of literals. -/
def Value.Legible : Value → Prop
  | .text s => Literal.Printable s.toList
  | .quoted s => Literal.Printable s.toList
  | .env name => Literal.Printable name.toList
  | _ => True

def Value.Finite : Value → Prop
  | .number d => d.isFinite = true
  | _ => True

/-- A key is a word and not empty. -/
def Key.Legible (key : String) : Prop :=
  key.toList ≠ [] ∧ ∀ c ∈ key.toList, CharClass.isWord c = true

/-- A comment stands on one line, with no white space around it. -/
def Comment.Legible (text : String) : Prop :=
  '\n' ∉ text.toList ∧ WhiteSpace.trim text.toList = text.toList

structure Entry.Legible (e : Entry) : Prop where
  key : Key.Legible e.key
  value : e.value.Legible
  comments : ∀ text ∈ e.comments, Comment.Legible text

structure Block.Legible (b : Block) : Prop where
  entries : ∀ e ∈ b.entries, e.Legible
  comments : ∀ text ∈ b.comments, Comment.Legible text

/-- A block that reads back: it is legible, and its numbers are finite. -/
structure Block.Printable (b : Block) : Prop extends b.Legible where
  finite : ∀ e ∈ b.entries, e.value.Finite

instance : DecidablePred Value.Legible
  | .text s => inferInstanceAs (Decidable (Literal.Printable s.toList))
  | .quoted s => inferInstanceAs (Decidable (Literal.Printable s.toList))
  | .env name => inferInstanceAs (Decidable (Literal.Printable name.toList))
  | .integer _ | .number _ | .boolean _ => .isTrue trivial

instance : DecidablePred Value.Finite
  | .number d => inferInstanceAs (Decidable (d.isFinite = true))
  | .text _ | .quoted _ | .env _ | .integer _ | .boolean _ => .isTrue trivial

instance : DecidablePred Key.Legible := fun key =>
  decidable_of_iff (key.toList ≠ [] ∧ key.toList.all CharClass.isWord = true)
    (by simp [Key.Legible])

instance : DecidablePred Comment.Legible := fun _ => inferInstanceAs (Decidable (_ ∧ _))

instance : DecidablePred Entry.Legible := fun e =>
  decidable_of_iff
    (Key.Legible e.key ∧ e.value.Legible ∧ ∀ text ∈ e.comments, Comment.Legible text)
    ⟨fun h => ⟨h.1, h.2.1, h.2.2⟩, fun h => ⟨h.key, h.value, h.comments⟩⟩

instance : DecidablePred Block.Legible := fun b =>
  decidable_of_iff
    ((∀ e ∈ b.entries, e.Legible) ∧ ∀ text ∈ b.comments, Comment.Legible text)
    ⟨fun h => ⟨h.1, h.2⟩, fun h => ⟨h.entries, h.comments⟩⟩

instance : DecidablePred Block.Printable := fun b =>
  decidable_of_iff (b.Legible ∧ ∀ e ∈ b.entries, e.value.Finite)
    ⟨fun h => ⟨h.1, h.2⟩, fun h => ⟨h.toLegible, h.finite⟩⟩

/-- What a line can say after it was read: legible parts, and no bare text. -/
def Line.Legible (l : Line) : Prop :=
  match l.content with
  | .comment text => Comment.Legible text
  | .blank => True
  | .entry e => e.Legible ∧ e.normal = e

theorem Literal.printable_of_reports {ps : List Piece} {pos : Position}
    (h : ∀ d ∈ reports ps pos, d.problem ≠ .literal .controlCharacter) :
    Printable (String.ofList (content ps)).toList := by
  rw [String.toList_ofList]
  apply printable_content
  rcases hctl : hasControl ps with _ | _
  · rfl
  · simp [reports, hctl, Diagnostic.located] at h

theorem Value.Form.legible_value (f : Form) {pos : Position}
    (h : ∀ d ∈ f.reports pos, ¬d.DropsControl) : f.value.Legible := by
  cases f with
  | literal ps =>
    apply Literal.printable_of_reports
    intro d hd hp
    exact h d hd (.inl hp)
  | env before ps after =>
    apply Literal.printable_of_reports
    intro d hd hp
    exact h _ (List.mem_map_of_mem hd) (.inr (by simp [hp]))
  | boolean truth letters hl => trivial
  | numeral n =>
    change (ofNumber n.value).Legible
    cases n.value <;> trivial

theorem Value.Form.normal_value (f : Form) : f.value.normal = f.value := by
  cases f with
  | numeral n =>
    change (ofNumber n.value).normal = ofNumber n.value
    cases n.value <;> rfl
  | _ => rfl

theorem Comment.Form.legible_doc (f : Form) : ∀ text ∈ f.doc?, Legible text := by
  intro text htext
  cases f with
  | remark body h => simp [doc?] at htext
  | doc body h =>
    obtain rfl : String.ofList (WhiteSpace.trim body) = text := by simpa [doc?] using htext
    rw [Legible, String.toList_ofList]
    exact ⟨fun hn => h (WhiteSpace.mem_of_mem_trim hn), WhiteSpace.trim_trim body⟩

theorem LineEnd.Form.legible_docs (f : Form) : ∀ text ∈ f.docs, Comment.Legible text := by
  intro text htext
  cases f with
  | newline => simp [docs] at htext
  | closing f => simp [docs] at htext
  | comment f => exact f.legible_doc text (by simpa [docs] using htext)

theorem Entry.Form.legible_entry (f : Form) {pos : Position}
    (h : ∀ d ∈ f.reports pos, ¬d.DropsControl) : f.entry.Legible where
  key := by
    rw [Key.Legible, entry, key, String.toList_ofList]
    exact ⟨by simp, by simpa [f.first_word] using f.more_word⟩
  value := f.value.legible_value fun d hd => h d (List.mem_append_left _ hd)
  comments := f.ending.legible_docs

theorem Line.Form.legible_line (f : Form) {pos : Position}
    (h : ∀ d ∈ f.reports pos, ¬d.DropsControl) : f.line.Legible := by
  cases f with
  | blank indent => trivial
  | brace indent f => trivial
  | comment indent f =>
    rcases hdoc : f.doc? with _ | text
    · simp [line, hdoc, ofComment, Legible]
    · simpa [line, hdoc, ofComment, Legible] using f.legible_doc text hdoc
  | entry indent f =>
    refine ⟨f.legible_entry h, ?_⟩
    simp [Entry.normal, Entry.Form.entry, f.value.normal_value]

theorem Line.Form.legible_lines {fs : List Form} {pos : Position}
    (h : ∀ d ∈ reportsAll fs pos, ¬d.DropsControl) : ∀ l ∈ fs.map line, l.Legible := by
  induction fs generalizing pos with
  | nil => simp
  | cons f fs ih =>
    intro l hl
    rcases List.mem_cons.1 hl with rfl | hl
    · exact f.legible_line fun d hd => h d (List.mem_append_left _ hd)
    · exact ih (fun d hd => h d (List.mem_append_right _ hd)) l hl

namespace Block

theorem legible_attach {lines : List Line} (hl : ∀ l ∈ lines, l.Legible) {pending : List String}
    (hp : ∀ text ∈ pending, Comment.Legible text) :
    (∀ e ∈ (attach pending lines).1, e.Legible ∧ e.normal = e) ∧
      ∀ text ∈ (attach pending lines).2, Comment.Legible text := by
  induction lines generalizing pending with
  | nil => exact ⟨by simp [attach], hp⟩
  | cons l lines ih =>
    have hlines : ∀ m ∈ lines, m.Legible := fun m hm => hl m (by simp [hm])
    have hline : l.Legible := hl l (by simp)
    obtain ⟨text | _ | e, ending⟩ := l
    · apply ih hlines
      exact List.forall_mem_append.2 ⟨hp, List.forall_mem_singleton.2 hline⟩
    · exact ih hlines hp
    · obtain ⟨hentry, hnormal⟩ : e.Legible ∧ e.normal = e := hline
      have hnone : ∀ text ∈ ([] : List String), Comment.Legible text := by simp
      have hrest := ih hlines hnone
      refine ⟨?_, hrest.2⟩
      intro f hf
      rcases List.mem_cons.1 hf with rfl | hf
      · refine ⟨⟨hentry.key, hentry.value, ?_⟩, ?_⟩
        · exact List.forall_mem_append.2 ⟨hp, hentry.comments⟩
        · have hvalue : e.value.normal = e.value := congrArg Entry.value hnormal
          simp [Entry.normal, hvalue]
      · exact hrest.1 f hf

/-- A block that was read is made of lines of the grammar, which report what was reported. -/
theorem exists_forms_of_read {h : Header} {c : Cursor} {b : Block} {ds : List Diagnostic}
    (hread : (read h c).1 = .success b ds) :
    ∃ fs : List Line.Form, b = ofLines h (fs.map Line.Form.line) ∧
      ds = Line.Form.reportsAll fs c.position := by
  have hbody : ofBody h (Body.read c) = .success b ds := hread
  unfold ofBody at hbody
  split_ifs at hbody with hclosed
  obtain ⟨hb, hds⟩ : ofLines h (Body.read c).lines = b ∧ (Body.read c).diagnostics = ds := by
    simpa using hbody
  obtain ⟨xs, z, hrest, hxs, hz, hfits⟩ := Body.exists_forms_of_closed _ hclosed
  have hforms := Body.read_forms hxs hz hfits c.position
  rw [← hrest] at hforms
  have hsame : Body.read c = Body.read ⟨c.rest, c.position⟩ := rfl
  refine ⟨xs ++ [z], ?_, ?_⟩
  · rw [← hb, hsame, hforms]
  · rw [← hds, hsame, hforms]

/-- A block that was read under a header with legible comments, with no control character left
out, is legible and normal. -/
theorem legible_of_read {h : Header} {c : Cursor} {b : Block} {ds : List Diagnostic}
    (hread : (read h c).1 = .success b ds) (hds : ∀ d ∈ ds, ¬d.DropsControl)
    (hh : ∀ text ∈ h.comments, Comment.Legible text) : b.Legible ∧ b.normal = b := by
  obtain ⟨fs, rfl, rfl⟩ := exists_forms_of_read hread
  have hnone : ∀ text ∈ ([] : List String), Comment.Legible text := by simp
  obtain ⟨hentries, hcomments⟩ := legible_attach (Line.Form.legible_lines hds) hnone
  refine ⟨⟨fun e he => (hentries e he).1, List.forall_mem_append.2 ⟨hh, hcomments⟩⟩, ?_⟩
  have hmap : (attach [] (fs.map Line.Form.line)).1.map Entry.normal =
      (attach [] (fs.map Line.Form.line)).1 :=
    (List.map_congr_left fun e he => (hentries e he).2).trans (List.map_id _)
  simp [normal, ofLines, hmap]

theorem legible_of_readText {text : String} {name : String} {b : Block} {ds : List Diagnostic}
    (hread : readText text ⟨name, []⟩ = .success b ds) (hds : ∀ d ∈ ds, ¬d.DropsControl) :
    b.Legible ∧ b.normal = b :=
  legible_of_read hread hds (by simp)

end Block

end ConfigBlock
