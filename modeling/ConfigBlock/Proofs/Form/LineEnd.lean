import ConfigBlock.Proofs.Form.Value
import ConfigBlock.Line.Entry

/-!
# The forms of a line's end

A line ends with its newline, with a comment, or with the brace that closes the block and
whatever follows the brace. Only the last of these may do without a newline, and then the
text is over.
-/

namespace ConfigBlock

open ConfigBlock.Parser

namespace Comment

/-- A comment with its newline: a remark, which does not go on with a third slash, or a
documentation comment. -/
inductive Form where
  | remark (body : List Char) (h : '\n' ∉ body ∧ body.head? ≠ some '/')
  | doc (body : List Char) (h : '\n' ∉ body)

namespace Form

def text : Form → List Char
  | .remark body _ => '/' :: '/' :: (body ++ ['\n'])
  | .doc body _ => '/' :: '/' :: '/' :: (body ++ ['\n'])

def doc? : Form → Option String
  | .remark _ _ => none
  | .doc body _ => some (String.ofList (WhiteSpace.trim body))

theorem reads (f : Form) (rest : List Char) : read.Reads f.text rest f.doc? silent := by
  intro pos
  cases f with
  | remark body h =>
    have hskip := Cursor.skipLine_append h.1 rest
    obtain ⟨d, hd, hne⟩ : ∃ d, (body ++ '\n' :: rest).head? = some d ∧ d ≠ '/' := by
      cases body with
      | nil => exact ⟨'\n', rfl, by decide⟩
      | cons d ds => exact ⟨d, rfl, by simpa using h.2⟩
    simp [read, text, doc?, silent, hd, hne, hskip, Outcome.map]
  | doc body h =>
    have hskip := Cursor.skipLine_append h rest
    have hline := Cursor.lineText_append h rest
    simp [read, text, doc?, silent, hskip, hline, Outcome.map]

end Form

theorem exists_form_of_read {c c' : Cursor} (hc : c.current = some '/') {doc : Option String}
    {ds : List Diagnostic} (h : read c = (.success doc ds, c')) :
    (∃ f : Form, c.rest = f.text ++ c'.rest) ∨ c'.rest = [] := by
  rw [Cursor.rest_eq_cons hc]
  unfold read at h
  rw [advance_bind] at h
  rcases h₁ : c.advance.current with _ | x
  · obtain ⟨-, rfl⟩ : _ ∧ c.advance = c' := by simpa [h₁] using h
    exact .inr (Cursor.rest_eq_nil h₁)
  · by_cases hx : x = '/'
    · subst hx
      rw [Cursor.rest_eq_cons h₁]
      simp only [h₁, if_true, advance_bind] at h
      rcases h₂ : c.advance.advance.current with _ | d
      · obtain ⟨-, rfl⟩ : _ ∧ c.advance.advance = c' := by simpa [h₂] using h
        exact .inr (Cursor.rest_eq_nil h₂)
      · by_cases hd : d = '/'
        · subst hd
          rw [Cursor.rest_eq_cons h₂]
          obtain ⟨-, rfl⟩ : _ ∧ c.advance.advance.advance.skipLine = c' := by
            simpa [h₂, Outcome.map] using h
          rcases c.advance.advance.advance.exists_line with ⟨body, hbody, hrest⟩ | ⟨-, hrest⟩
          · exact .inl ⟨.doc body hbody, by simp [hrest, Form.text]⟩
          · exact .inr hrest
        · obtain ⟨-, rfl⟩ : _ ∧ c.advance.advance.skipLine = c' := by
            simpa [h₂, hd, Outcome.map] using h
          rcases c.advance.advance.exists_line with ⟨body, hbody, hrest⟩ | ⟨-, hrest⟩
          · have hhead : body.head? ≠ some '/' := by
              have hcur : (body ++ '\n' :: c.advance.advance.skipLine.rest).head? = some d :=
                hrest ▸ h₂
              cases body with
              | nil => simp
              | cons b bs =>
                obtain rfl : b = d := by simpa using hcur
                simpa using hd
            exact .inl ⟨.remark body ⟨hbody, hhead⟩, by simp [hrest, Form.text]⟩
          · exact .inr hrest
    · simp [h₁, hx] at h

end Comment

namespace Closing

/-- Where the line of a closing brace ends. -/
inductive Break where
  | newline
  | endOfText

namespace Break

def text : Break → List Char
  | .newline => ['\n']
  | .endOfText => []

/-- A line that ends without a newline is the last one. -/
def Fits : Break → List Char → Prop
  | .newline, _ => True
  | .endOfText, rest => rest = []

end Break

/-- The closing brace and what follows it on its line: nothing but blanks, or a text that a
blank keeps apart from the brace. -/
inductive Form where
  | plain (gap : Nat) (ending : Break)
  | skipped (gap : Nat) (first : Char) (more : List Char)
      (h : first ≠ ' ' ∧ first ≠ '\n' ∧ '\n' ∉ more) (ending : Break)

namespace Form

def text : Form → List Char
  | .plain gap ending => '}' :: (spaces gap ++ ending.text)
  | .skipped gap first more _ ending =>
    '}' :: (spaces (gap + 1) ++ first :: (more ++ ending.text))

def Fits : Form → List Char → Prop
  | .plain _ ending, rest => ending.Fits rest
  | .skipped _ _ _ _ ending, rest => ending.Fits rest

/-- Skipped text is reported where it starts. -/
def reports : Form → Position → List Diagnostic
  | .plain .., _ => []
  | .skipped gap .., pos =>
    [.located (pos.advance ('}' :: spaces (gap + 1))) (.entry .skippedText) .warning]

theorem reads_plain (gap : Nat) (ending : Break) {rest : List Char} (h : ending.Fits rest) :
    read.Reads (plain gap ending).text rest () silent := by
  intro pos
  cases gap with
  | zero =>
    cases ending with
    | newline => simp [read, text, spaces, Break.text, silent, Outcome.map]
    | endOfText =>
      obtain rfl : rest = [] := h
      simp [read, text, spaces, Break.text, silent]
  | succ gap =>
    have hcur : (spaces (gap + 1) ++ (ending.text ++ rest)).head? = some ' ' := rfl
    have hskip := Cursor.skipSpaces_append (gap + 1) (ending.text ++ rest) (by
      cases ending with
      | newline => simp [Break.text]
      | endOfText =>
        obtain rfl : rest = [] := h
        simp [Break.text])
    cases ending with
    | newline => simp_all [read, text, Break.text, silent, Outcome.map]
    | endOfText =>
      obtain rfl : rest = [] := h
      simp_all [read, text, Break.text, silent]

theorem reads_skipped (gap : Nat) {first : Char} {more : List Char}
    (h : first ≠ ' ' ∧ first ≠ '\n' ∧ '\n' ∉ more) (ending : Break) {rest : List Char}
    (hr : ending.Fits rest) :
    read.Reads (skipped gap first more h ending).text rest ()
      (skipped gap first more h ending).reports := by
  intro pos
  have hcur : (spaces (gap + 1) ++ (first :: (more ++ (ending.text ++ rest)))).head? = some ' ' :=
    rfl
  have hskip := Cursor.skipSpaces_append (gap + 1) (first :: (more ++ (ending.text ++ rest)))
    (by simpa using h.1)
  have hnot : '\n' ∉ first :: more := by simp [h.2.2, Ne.symm h.2.1]
  have hline : ∀ p, (Cursor.mk (first :: (more ++ (ending.text ++ rest))) p).skipLine =
      ⟨rest, p.advance (first :: (more ++ ending.text))⟩ := by
    intro p
    cases ending with
    | newline => simpa [Break.text] using Cursor.skipLine_append hnot rest p
    | endOfText =>
      obtain rfl : rest = [] := hr
      simpa [Break.text] using Cursor.skipLine_of_notMem hnot p
  simp [read, text, hcur, hskip, h.2.1, hline, Outcome.map, reports, Cursor.warning]

theorem reads (f : Form) {rest : List Char} (h : f.Fits rest) :
    read.Reads f.text rest () f.reports := by
  cases f with
  | plain gap ending => exact reads_plain gap ending h
  | skipped gap first more hm ending => exact reads_skipped gap hm ending h

end Form

theorem exists_form_of_skipped (gap : Nat) {c : Cursor} {first : Char}
    (hc : c.current = some first) (hblank : first ≠ ' ') (hline : first ≠ '\n') :
    ∃ f : Form, '}' :: (spaces (gap + 1) ++ c.rest) = f.text ++ c.skipLine.rest ∧
      f.Fits c.skipLine.rest := by
  rcases c.exists_line with ⟨word, hword, hrest⟩ | ⟨hnot, hrest⟩
  · obtain ⟨more, rfl⟩ : ∃ more, word = first :: more := by
      have hcur : (word ++ '\n' :: c.skipLine.rest).head? = some first := hrest ▸ hc
      cases word with
      | nil => exact absurd (by simpa using hcur.symm) hline
      | cons b bs => exact ⟨bs, by simpa using hcur⟩
    have hmore : '\n' ∉ more := fun hm => hword (by simp [hm])
    exact ⟨.skipped gap first more ⟨hblank, hline, hmore⟩ .newline,
      by simp [hrest, Form.text, Break.text], trivial⟩
  · have hcons := Cursor.rest_eq_cons hc
    have hmore : '\n' ∉ c.advance.rest := fun hm => hnot (by simp [hcons, hm])
    exact ⟨.skipped gap first c.advance.rest ⟨hblank, hline, hmore⟩ .endOfText,
      by simp [hcons, hrest, Form.text, Break.text], hrest⟩

theorem exists_form_of_read {c c' : Cursor} (hc : c.current = some '}') {ds : List Diagnostic}
    (h : read c = (.success () ds, c')) :
    ∃ f : Form, c.rest = f.text ++ c'.rest ∧ f.Fits c'.rest := by
  rw [Cursor.rest_eq_cons hc]
  unfold read at h
  rw [advance_bind] at h
  rcases h₁ : c.advance.current with _ | x
  · obtain ⟨-, rfl⟩ : _ ∧ c.advance = c' := by simpa [h₁] using h
    exact ⟨.plain 0 .endOfText, rfl, Cursor.rest_eq_nil h₁⟩
  · by_cases hn : x = '\n'
    · obtain ⟨-, rfl⟩ : _ ∧ c.advance.advance = c' := by simpa [h₁, hn, Outcome.map] using h
      exact ⟨.plain 0 .newline, by rw [Cursor.rest_eq_cons h₁, hn]; rfl, trivial⟩
    · by_cases hx : x = ' '
      · subst hx
        obtain ⟨gap, hgap, hblank⟩ := Cursor.exists_spaces_succ h₁
        rw [hgap]
        rcases h₂ : c.advance.skipSpaces.current with _ | d
        · obtain ⟨-, rfl⟩ : _ ∧ c.advance.skipSpaces = c' := by simpa [h₁, h₂] using h
          exact ⟨.plain (gap + 1) .endOfText, by simp [Form.text, Break.text],
            Cursor.rest_eq_nil h₂⟩
        · by_cases hd : d = '\n'
          · obtain ⟨-, rfl⟩ : _ ∧ c.advance.skipSpaces.advance = c' := by
              simpa [h₁, h₂, hd, Outcome.map] using h
            exact ⟨.plain (gap + 1) .newline,
              by rw [Cursor.rest_eq_cons h₂, hd]; simp [Form.text, Break.text], trivial⟩
          · obtain ⟨-, rfl⟩ : _ ∧ c.advance.skipSpaces.skipLine = c' := by
              simpa [h₁, h₂, hd, Outcome.map] using h
            exact exists_form_of_skipped gap h₂ (fun hs => hblank (hs ▸ h₂)) hd
      · simp [h₁, hn, hx] at h

end Closing

namespace LineEnd

/-- What may stand behind the value of an entry and the blanks after it. -/
inductive Form where
  | newline
  | comment (f : Comment.Form)
  | closing (f : Closing.Form)

namespace Form

def text : Form → List Char
  | .newline => ['\n']
  | .comment f => f.text
  | .closing f => f.text

def docs : Form → List String
  | .comment f => f.doc?.toList
  | _ => []

def lineEnd : Form → LineEnd
  | .closing _ => .closing
  | _ => .newline

def Fits : Form → List Char → Prop
  | .closing f, rest => f.Fits rest
  | _, _ => True

def reports : Form → Position → List Diagnostic
  | .closing f, pos => f.reports pos
  | _, _ => []

end Form
end LineEnd

namespace Entry

theorem readEnd_reads (key : String) (value : Value) (gap : Nat) (f : LineEnd.Form)
    {rest : List Char} (h : f.Fits rest) :
    (readEnd key value).Reads (spaces gap ++ f.text) rest (⟨key, value, f.docs⟩, f.lineEnd)
      fun pos => f.reports (pos.advance (spaces gap)) := by
  intro pos
  cases f with
  | newline =>
    have hskip := Cursor.skipSpaces_append gap ('\n' :: rest) (by simp)
    simp [readEnd, LineEnd.Form.text, hskip, Outcome.map, LineEnd.Form.docs,
      LineEnd.Form.lineEnd, LineEnd.Form.reports]
  | comment f =>
    have hhead : (f.text ++ rest).head? = some '/' := by cases f <;> rfl
    have hskip := Cursor.skipSpaces_append gap (f.text ++ rest) (by simp [hhead])
    have hread := f.reads rest (pos.advance (spaces gap))
    simp [readEnd, LineEnd.Form.text, hskip, hhead, hread, Outcome.map, LineEnd.Form.docs,
      LineEnd.Form.lineEnd, LineEnd.Form.reports, silent]
  | closing f =>
    have hhead : (f.text ++ rest).head? = some '}' := by cases f <;> rfl
    have hskip := Cursor.skipSpaces_append gap (f.text ++ rest) (by simp [hhead])
    have hread := f.reads h (pos.advance (spaces gap))
    simp [readEnd, LineEnd.Form.text, hskip, hhead, hread, Outcome.map, LineEnd.Form.docs,
      LineEnd.Form.lineEnd, LineEnd.Form.reports]

theorem exists_form_of_readEnd {key : String} {value : Value} {e : Entry} {ending : LineEnd}
    {c c' : Cursor} {ds : List Diagnostic}
    (h : readEnd key value c = (.success (e, ending) ds, c')) :
    (∃ (gap : Nat) (f : LineEnd.Form), c.rest = spaces gap ++ (f.text ++ c'.rest) ∧
      f.Fits c'.rest) ∨ (ending = .newline ∧ c'.rest = []) := by
  obtain ⟨gap, hgap, -⟩ := c.exists_spaces
  unfold readEnd at h
  rw [skipSpaces_bind] at h
  rw [hgap]
  rcases hc : c.skipSpaces.current with _ | x
  · simp [hc] at h
  · simp only [hc] at h
    split_ifs at h with hn hb hs
    · obtain ⟨-, rfl⟩ : _ ∧ c.skipSpaces.advance = c' := by simpa [Outcome.map] using h
      exact .inl ⟨gap, .newline, by rw [Cursor.rest_eq_cons hc, hn]; rfl, trivial⟩
    · obtain ⟨u, hread, -⟩ := bind_pure_eq_success.1 h
      obtain ⟨f, hf, hfits⟩ := Closing.exists_form_of_read (hb ▸ hc) hread
      exact .inl ⟨gap, .closing f, by rw [hf]; rfl, hfits⟩
    · obtain ⟨doc, hread, hval⟩ := bind_pure_eq_success.1 h
      rcases Comment.exists_form_of_read (hs ▸ hc) hread with ⟨f, hf⟩ | hnil
      · exact .inl ⟨gap, .comment f, by rw [hf]; rfl, trivial⟩
      · exact .inr ⟨congrArg Prod.snd hval, hnil⟩
    · simp at h

end Entry
end ConfigBlock
