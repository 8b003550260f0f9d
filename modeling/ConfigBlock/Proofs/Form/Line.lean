import ConfigBlock.Proofs.Form.LineEnd
import ConfigBlock.Line.Reader

/-!
# The forms of a line

A line is blank, a comment, the closing brace, or an entry; blanks may stand in front of it
and between its parts. Reading a line succeeds exactly on these forms, apart from a comment
that breaks off with the text, and gives the line that the form stands for.
-/

namespace ConfigBlock

open ConfigBlock.Parser

namespace Key

theorem isWord_space : CharClass.isWord ' ' = false := by decide

theorem isWord_equals : CharClass.isWord '=' = false := by decide

theorem read_reads (first : Char) {more : List Char} (h : ∀ c ∈ more, CharClass.isWord c = true)
    (gap : Nat) (rest : List Char) :
    (read first).Reads (first :: (more ++ (spaces gap ++ ['=']))) rest
      (String.ofList (first :: more)) silent := by
  intro pos
  have hstop : ∀ c ∈ (spaces gap ++ '=' :: rest).head?, CharClass.isWord c = false := by
    cases gap with
    | zero => simp [spaces, isWord_equals]
    | succ gap => simp [spaces, List.replicate_succ, isWord_space]
  have hrun := Cursor.run_append h _ hstop
  have hskip := Cursor.skipWhile_append h _ hstop
  cases gap with
  | zero => simp_all [read, finish, spaces, silent, Outcome.map]
  | succ gap =>
    have hcur : (spaces (gap + 1) ++ '=' :: rest).head? = some ' ' := rfl
    have hspaces := Cursor.skipSpaces_append (gap + 1) ('=' :: rest) (by simp)
    simp [read, finish, hrun, hskip, hcur, hspaces, silent, Outcome.map]

theorem exists_word_of_read {first : Char} {cs : List Char} {pos : Position} {key : String}
    {ds : List Diagnostic} {c' : Cursor}
    (h : read first ⟨first :: cs, pos⟩ = (.success key ds, c')) :
    ∃ more gap, (∀ c ∈ more, CharClass.isWord c = true) ∧
      cs = more ++ (spaces gap ++ '=' :: c'.rest) := by
  have hcs := Cursor.rest_eq_run_append ⟨cs, pos.step first⟩ CharClass.isWord
  have hword : ∀ c ∈ (Cursor.mk cs (pos.step first)).run CharClass.isWord,
      CharClass.isWord c = true := fun c hc => Cursor.of_mem_run hc
  unfold read at h
  simp only [advance_bind, Cursor.advance_cons, takeWhile_bind, current_bind] at h
  generalize (Cursor.mk cs (pos.step first)).run CharClass.isWord = more at hcs hword h
  generalize (Cursor.mk cs (pos.step first)).skipWhile CharClass.isWord = c₁ at hcs h
  refine ⟨more, ?_⟩
  rcases hc : c₁.current with _ | x
  · simp [hc] at h
  · simp only [hc] at h
    split_ifs at h with he hs hn
    · obtain ⟨-, rfl⟩ : _ ∧ c₁.advance = c' := by simpa [finish, Outcome.map] using h
      refine ⟨0, hword, ?_⟩
      simpa [spaces, Cursor.rest_eq_cons hc, he] using hcs
    · obtain ⟨gap, hgap, -⟩ := c₁.exists_spaces
      rw [skipSpaces_bind] at h
      rcases hd : c₁.skipSpaces.current with _ | d
      · simp [hd] at h
      · by_cases hde : d = '='
        · obtain ⟨-, rfl⟩ : _ ∧ c₁.skipSpaces.advance = c' := by
            simpa [hd, hde, finish, Outcome.map] using h
          refine ⟨gap, hword, ?_⟩
          rw [Cursor.rest_eq_cons hd, hde] at hgap
          simpa [hgap] using hcs
        · simp [hd, hde] at h
    · simp at h
    · simp at h

end Key

namespace Entry

theorem read_key (first : Char) {more : List Char} (h : ∀ c ∈ more, CharClass.isWord c = true)
    (before after : Nat) {cs : List Char} (hcs : cs.head? ≠ some ' ') (pos : Position) :
    read first ⟨first :: (more ++ (spaces before ++ ['='])) ++ (spaces after ++ cs), pos⟩ =
      (Value.read >>= fun value => readEnd (String.ofList (first :: more)) value)
        ⟨cs, pos.advance (first :: (more ++ (spaces before ++ ['='])) ++ spaces after)⟩ := by
  have hkey := Key.read_reads first h before (spaces after ++ cs) pos
  rw [read, bind_of_success hkey, skipSpaces_bind, Cursor.skipSpaces_append after cs hcs]
  simp [silent]

/-- An entry with everything up to the end of its line. A value that may not join the closing
brace is kept apart from it. -/
structure Form where
  first : Char
  more : List Char
  before : Nat
  after : Nat
  value : Value.Form
  gap : Nat
  ending : LineEnd.Form
  first_word : CharClass.isWord first = true
  more_word : ∀ c ∈ more, CharClass.isWord c = true
  apart : value.joins = true ∨ gap ≠ 0 ∨ ending.lineEnd = .newline

namespace Form

/-- The text in front of the value. -/
def keyText (f : Form) : List Char :=
  f.first :: (f.more ++ (spaces f.before ++ ['=']))

def text (f : Form) : List Char :=
  f.keyText ++ (spaces f.after ++ (f.value.text ++ (spaces f.gap ++ f.ending.text)))

def key (f : Form) : String := String.ofList (f.first :: f.more)

def entry (f : Form) : Entry := ⟨f.key, f.value.value, f.ending.docs⟩

def reports (f : Form) (pos : Position) : List Diagnostic :=
  f.value.reports (pos.advance (f.keyText ++ spaces f.after)) ++
    f.ending.reports
      (pos.advance (f.keyText ++ (spaces f.after ++ (f.value.text ++ spaces f.gap))))

theorem follows_ending (f : Form) (rest : List Char) :
    f.value.Follows (spaces f.gap ++ (f.ending.text ++ rest)) := by
  cases hg : f.gap with
  | succ gap => exact f.value.follows_of_isStop (by decide)
  | zero =>
    cases he : f.ending with
    | newline => exact f.value.follows_of_isStop (by decide)
    | comment g => cases g <;> exact f.value.follows_of_isStop (by decide)
    | closing g =>
      have hj : f.value.joins = true := by
        simpa [hg, he, LineEnd.Form.lineEnd] using f.apart
      cases g <;> exact (f.value.follows_brace _).2 hj

theorem reads (f : Form) {rest : List Char} (h : f.ending.Fits rest) :
    (read f.first).Reads f.text rest (f.entry, f.ending.lineEnd) f.reports := by
  intro pos
  have hvalue := f.value.reads (f.follows_ending rest)
  rw [← List.append_assoc] at hvalue
  have hboth := hvalue.bind (readEnd_reads f.key f.value.value f.gap f.ending h)
  have htext : f.text ++ rest = f.first :: (f.more ++ (spaces f.before ++ ['='])) ++
      (spaces f.after ++ (f.value.text ++ (spaces f.gap ++ f.ending.text) ++ rest)) := by
    simp [text, keyText]
  have hhead := f.value.head?_text_ne_space (spaces f.gap ++ f.ending.text ++ rest)
  rw [← List.append_assoc] at hhead
  rw [htext, read_key f.first f.more_word f.before f.after hhead]
  refine (hboth _).trans ?_
  simp [entry, reports, text, keyText]

end Form

/-- A value that was read in front of a closing brace may join it or is kept apart. -/
theorem apart_of_follows {value : Value.Form} {gap : Nat} {ending : LineEnd.Form}
    {rest : List Char} (h : value.Follows (spaces gap ++ (ending.text ++ rest))) :
    value.joins = true ∨ gap ≠ 0 ∨ ending.lineEnd = .newline := by
  cases gap with
  | succ gap => exact .inr (.inl (by omega))
  | zero =>
    cases ending with
    | newline => exact .inr (.inr rfl)
    | comment f => exact .inr (.inr rfl)
    | closing f => cases f <;> exact .inl ((value.follows_brace _).1 h)

/-- An entry that was read has a form, unless a comment behind it broke off with the text. -/
theorem exists_form_of_read {first : Char} (hfirst : CharClass.isWord first = true)
    {cs : List Char} {pos : Position} {e : Entry} {ending : LineEnd} {ds : List Diagnostic}
    {c' : Cursor} (h : read first ⟨first :: cs, pos⟩ = (.success (e, ending) ds, c')) :
    (∃ f : Form, first :: cs = f.text ++ c'.rest ∧ f.ending.Fits c'.rest) ∨
      (ending = .newline ∧ c'.rest = []) := by
  obtain ⟨key, c₁, ds₁, ds₂, hkey, hrest, -⟩ := bind_eq_success.1 h
  obtain ⟨more, before, hmore, rfl⟩ := Key.exists_word_of_read hkey
  rw [skipSpaces_bind] at hrest
  obtain ⟨after, hafter, -⟩ := c₁.exists_spaces
  obtain ⟨v, c₂, ds₃, ds₄, hvalue, hend, -⟩ := bind_eq_success.1 hrest
  obtain ⟨value, hv, hfollows⟩ := Value.exists_form_of_read hvalue
  rcases exists_form_of_readEnd hend with ⟨gap, ending', he, hfits⟩ | hnil
  · left
    have hapart := apart_of_follows (he ▸ hfollows)
    refine ⟨⟨first, more, before, after, value, gap, ending', hfirst, hmore, hapart⟩, ?_, hfits⟩
    simp [Form.text, Form.keyText, hafter, hv, he]
  · exact .inr hnil

end Entry

namespace Line

/-- A line with its end. -/
inductive Form where
  | blank (indent : Nat)
  | comment (indent : Nat) (f : Comment.Form)
  | brace (indent : Nat) (f : Closing.Form)
  | entry (indent : Nat) (f : Entry.Form)

namespace Form

def text : Form → List Char
  | .blank indent => spaces indent ++ ['\n']
  | .comment indent f => spaces indent ++ f.text
  | .brace indent f => spaces indent ++ f.text
  | .entry indent f => spaces indent ++ f.text

def closes : Form → Bool
  | .blank _ => false
  | .comment .. => false
  | .brace .. => true
  | .entry _ f => f.ending.lineEnd.closes

/-- A line may end without a newline only if it closes the block and the text. -/
def Fits : Form → List Char → Prop
  | .brace _ f, rest => f.Fits rest
  | .entry _ f, rest => f.ending.Fits rest
  | _, _ => True

def line : Form → Line
  | .blank _ => ⟨.blank, .newline⟩
  | .comment _ f => ofComment f.doc?
  | .brace .. => ⟨.blank, .closing⟩
  | .entry _ f => ⟨.entry f.entry, f.ending.lineEnd⟩

def reports : Form → Position → List Diagnostic
  | .brace indent f, pos => f.reports (pos.advance (spaces indent))
  | .entry indent f, pos => f.reports (pos.advance (spaces indent))
  | _, _ => []

@[simp] theorem closes_line (f : Form) : f.line.closes = f.closes := by
  cases f with
  | comment indent f => cases f <;> rfl
  | _ => rfl

end Form

theorem read_indent (indent : Nat) {first : Char} (h : first ≠ ' ') (cs : List Char)
    (pos : Position) : read ⟨spaces indent ++ first :: cs, pos⟩ =
      readFrom first ⟨first :: cs, pos.advance (spaces indent)⟩ := by
  rw [read, skipSpaces_bind, Cursor.skipSpaces_append indent _ (by simpa using h)]
  rfl

theorem isWord_ne {c : Char} (h : CharClass.isWord c = true) :
    c ≠ ' ' ∧ c ≠ '/' ∧ c ≠ '\n' ∧ c ≠ '}' := by
  refine ⟨?_, ?_, ?_, ?_⟩ <;> rintro rfl <;> exact absurd h (by decide)

theorem Form.reads (f : Form) {rest : List Char} (h : f.Fits rest) :
    read.Reads f.text rest f.line f.reports := by
  intro pos
  cases f with
  | blank indent =>
    rw [text, List.append_assoc, List.singleton_append, read_indent indent (by decide)]
    simp [readFrom, line, reports]
  | comment indent f =>
    obtain ⟨cs, hcs⟩ : ∃ cs, f.text = '/' :: cs := by cases f <;> exact ⟨_, rfl⟩
    have hread := f.reads rest (pos.advance (spaces indent))
    rw [hcs, List.cons_append] at hread
    rw [text, hcs, List.append_assoc, List.cons_append, read_indent indent (by decide)]
    simp [readFrom, hread, line, reports, Outcome.map, silent]
  | brace indent f =>
    obtain ⟨cs, hcs⟩ : ∃ cs, f.text = '}' :: cs := by cases f <;> exact ⟨_, rfl⟩
    have hread := f.reads h (pos.advance (spaces indent))
    rw [hcs, List.cons_append] at hread
    rw [text, hcs, List.append_assoc, List.cons_append, read_indent indent (by decide)]
    simp [readFrom, hread, line, reports, Outcome.map]
  | entry indent f =>
    obtain ⟨hs, hc, hn, hb⟩ := isWord_ne f.first_word
    obtain ⟨cs, hcs⟩ : ∃ cs, f.text = f.first :: cs := ⟨_, rfl⟩
    have hread := f.reads h (pos.advance (spaces indent))
    rw [hcs, List.cons_append] at hread
    rw [text, hcs, List.append_assoc, List.cons_append, read_indent indent hs]
    simp [readFrom, hc, hn, hb, f.first_word, hread, line, reports, Outcome.map]

/-- A line that was read has a form, unless it is a comment, or an entry with a comment, that
broke off with the text. -/
theorem exists_form_of_read {c c' : Cursor} {l : Line} {ds : List Diagnostic}
    (h : read c = (.success l ds, c')) :
    (∃ f : Form, c.rest = f.text ++ c'.rest ∧ f.Fits c'.rest) ∨
      (l.closes = false ∧ c'.rest = []) := by
  obtain ⟨indent, hindent, -⟩ := c.exists_spaces
  rw [hindent]
  rw [read, skipSpaces_bind] at h
  rcases hc : c.skipSpaces.current with _ | first
  · simp [hc] at h
  · rw [hc] at h
    dsimp only at h
    unfold readFrom at h
    split_ifs at h with hs hn hb hw
    · obtain ⟨doc, hread, rfl⟩ := bind_pure_eq_success.1 h
      rcases Comment.exists_form_of_read (hs ▸ hc) hread with ⟨f, hf⟩ | hnil
      · exact .inl ⟨.comment indent f, by simp [hf, Form.text], trivial⟩
      · exact .inr ⟨by cases doc <;> rfl, hnil⟩
    · obtain ⟨-, rfl⟩ : _ ∧ c.skipSpaces.advance = c' := by simpa [Outcome.map] using h
      exact .inl ⟨.blank indent, by simp [Cursor.rest_eq_cons hc, hn, Form.text], trivial⟩
    · obtain ⟨u, hread, -⟩ := bind_pure_eq_success.1 h
      obtain ⟨f, hf, hfits⟩ := Closing.exists_form_of_read (hb ▸ hc) hread
      exact .inl ⟨.brace indent f, by simp [hf, Form.text], hfits⟩
    · obtain ⟨⟨e, ending⟩, hread, rfl⟩ := bind_pure_eq_success.1 h
      have hcons := Cursor.rest_eq_cons hc
      have hmk : c.skipSpaces =
          ⟨first :: c.skipSpaces.advance.rest, c.skipSpaces.position⟩ := by
        rw [← hcons]
      rw [hmk] at hread
      rcases Entry.exists_form_of_read hw hread with ⟨f, hf, hfits⟩ | ⟨rfl, hnil⟩
      · exact .inl ⟨.entry indent f, by simp [hcons, hf, Form.text], hfits⟩
      · exact .inr ⟨rfl, hnil⟩
    · simp at h

end Line
end ConfigBlock
