import ConfigBlock.Proofs.Form.Literal
import ConfigBlock.Proofs.Form.Numeral
import ConfigBlock.Value.Reader
import Mathlib.Tactic.SplitIfs

/-!
# The form of a value

A value is a literal, a reference to a variable, a truth value or a numeral. A literal may
stand right before anything; a reference may also stand before the closing brace; truth
values and numerals need a blank, a slash, a newline or the end of the text behind them.
-/

namespace ConfigBlock

namespace Parser

variable {α : Type} {accepts : Char → Char → Bool} {atEnd : Problem} {unexpected : Char → Problem}
  {same : Char → Char}

/-- Spelling a word out and stepping over its last letter reads the word, if its letters are
accepted up to what `same` identifies. -/
theorem spell_advance_bind {expected letters : List Char}
    (ha : ∀ e ∈ expected, ∀ c, accepts e c = true ↔ same c = e)
    (hm : letters.map same = expected) (f : Option Char → Parser α) (first : Char)
    (rest : List Char) (pos : Position) :
    (spell accepts atEnd unexpected expected >>= fun _ => advance >>= f)
        ⟨first :: (letters ++ rest), pos⟩ =
      f rest.head? ⟨rest, pos.advance (first :: letters)⟩ := by
  induction letters generalizing expected first pos with
  | nil =>
    obtain rfl : expected = [] := by simpa using hm.symm
    simp [spell]
  | cons c letters ih =>
    obtain ⟨e, es, rfl⟩ := List.exists_cons_of_ne_nil (l := expected) (by rintro rfl; simp at hm)
    obtain ⟨hc, hletters⟩ : same c = e ∧ letters.map same = es := by simpa using hm
    have hacc : accepts e c = true := (ha e (by simp) c).2 hc
    have h := ih (fun x hx => ha x (by simp [hx])) hletters c (pos.step first)
    simpa [spell, hacc] using h

/-- A word that was spelled out is there, behind the character it was spelled from. -/
theorem exists_letters_of_spell {expected : List Char}
    (ha : ∀ e ∈ expected, ∀ c, accepts e c = true ↔ same c = e) {c c' : Cursor}
    {ds : List Diagnostic}
    (h : spell accepts atEnd unexpected expected c = (.success () ds, c')) :
    ∃ letters, letters.map same = expected ∧ c.rest.tail = letters ++ c'.rest.tail := by
  induction expected generalizing c ds with
  | nil =>
    obtain ⟨-, rfl⟩ : _ ∧ c = c' := by simpa [spell] using h
    exact ⟨[], rfl, rfl⟩
  | cons e es ih =>
    obtain ⟨_ | ⟨first, _ | ⟨x, rest⟩⟩, pos⟩ := c
    · simp [spell] at h
    · simp [spell] at h
    · by_cases hx : accepts e x = true
      · obtain ⟨letters, hm, ht⟩ := ih (fun y hy => ha y (by simp [hy]))
          (c := ⟨x :: rest, pos.step first⟩) (by simpa [spell, hx] using h)
        exact ⟨x :: letters, by simp [hm, (ha e (by simp) x).1 hx], by simpa using ht⟩
      · simp [spell, hx] at h

end Parser

namespace Value

open ConfigBlock.Parser

theorem isLower_iff {c : Char} : c.isLower = true ↔ 97 ≤ c.toNat ∧ c.toNat ≤ 122 := by
  unfold Char.isLower
  simp [UInt32.le_iff_toNat_le]

theorem toNat_toLower (c : Char) :
    c.toLower.toNat = if 65 ≤ c.toNat ∧ c.toNat ≤ 90 then c.toNat + 32 else c.toNat := by
  unfold Char.toLower
  simp only [ge_iff_le, UInt32.le_iff_toNat_le, Char.toNat]
  split_ifs <;> grind [UInt32.toNat_add]

theorem toNat_toUpper (c : Char) :
    c.toUpper.toNat = if 97 ≤ c.toNat ∧ c.toNat ≤ 122 then c.toNat - 32 else c.toNat := by
  unfold Char.toUpper
  simp only [UInt32.le_iff_toNat_le, Char.toNat]
  split_ifs <;> grind [UInt32.toNat_add]

theorem toLower_eq_iff {c e : Char} (he : e.isLower = true) :
    c.toLower = e ↔ c = e ∨ c = e.toUpper := by
  have hlower := isLower_iff.1 he
  simp only [← Char.toNat_inj, toNat_toLower, toNat_toUpper, if_pos hlower]
  split_ifs <;> omega

/-- The lower-case spelling of a truth value. -/
def word (truth : Bool) : List Char := if truth then "true".toList else "false".toList

inductive Form where
  | literal (ps : List Literal.Piece)
  | env (before : Nat) (ps : List Literal.Piece) (after : Nat)
  | boolean (truth : Bool) (letters : List Char) (h : letters.map Char.toLower = word truth)
  | numeral (n : Numeral.Form)

namespace Form

def text : Form → List Char
  | .literal ps => Literal.quotedText ps
  | .env before ps after =>
    ['e', 'n', 'v', '('] ++
      (spaces before ++ (Literal.quotedText ps ++ (spaces after ++ [')'])))
  | .boolean _ letters _ => letters
  | .numeral n => n.text

def value : Form → Value
  | .literal ps => .quoted (String.ofList (Literal.content ps))
  | .env _ ps _ => .env (String.ofList (Literal.content ps))
  | .boolean truth _ _ => .boolean truth
  | .numeral n => ofNumber n.value

def reports : Form → Position → List Diagnostic
  | .literal ps, pos => Literal.reports ps pos
  | .env before ps _, pos =>
    (Literal.reports ps (pos.advance (['e', 'n', 'v', '('] ++ spaces before))).map
      fun d => { d with problem := d.problem.insideEnv }
  | _, _ => []

/-- What may come right behind the value. -/
def Follows : Form → List Char → Prop
  | .literal _, _ => True
  | .env .., rest => ∀ c ∈ rest.head?, Numeral.isStop c = true ∨ c = '}'
  | .boolean .., rest => Numeral.Stops rest
  | .numeral _, rest => Numeral.Stops rest

end Form

theorem accepts_iff {truth : Bool} : ∀ e ∈ if truth then "rue".toList else "alse".toList,
    ∀ c : Char, (decide (c = e) || decide (c = e.toUpper)) = true ↔ c.toLower = e := by
  intro e he c
  have hall : (if truth then "rue".toList else "alse".toList).all Char.isLower = true := by
    cases truth <;> decide
  have hlower : e.isLower = true := List.all_eq_true.1 hall e he
  simp [toLower_eq_iff hlower]

theorem readBoolean_letters (truth : Bool) (first : Char) {letters : List Char}
    (h : letters.map Char.toLower = if truth then "rue".toList else "alse".toList)
    {rest : List Char} (hr : Numeral.Stops rest) :
    (readBoolean truth).Reads (first :: letters) rest truth silent := by
  intro pos
  unfold readBoolean
  rw [List.cons_append, spell_advance_bind accepts_iff h]
  cases rest with
  | nil => simp [silent]
  | cons c cs =>
    have hc := (Numeral.isStop_iff c).1 (hr c (by simp))
    simp [hc, silent]

theorem exists_letters_of_readBoolean {truth b : Bool} {first : Char} {cs : List Char}
    {pos : Position} {ds : List Diagnostic} {c' : Cursor}
    (h : readBoolean truth ⟨first :: cs, pos⟩ = (.success b ds, c')) :
    ∃ letters, letters.map Char.toLower = (if truth then "rue".toList else "alse".toList) ∧
      cs = letters ++ c'.rest ∧ Numeral.Stops c'.rest := by
  obtain ⟨u, c₁, ds₁, ds₂, hspell, hend, -⟩ := bind_eq_success.1 h
  obtain ⟨letters, hletters, hcs⟩ := exists_letters_of_spell accepts_iff hspell
  rw [advance_bind] at hend
  rw [List.tail_cons, c₁.tail_rest] at hcs
  rcases hc : c₁.advance.current with _ | x
  · obtain ⟨-, rfl⟩ : _ ∧ c₁.advance = c' := by simpa [hc] using hend
    refine ⟨letters, hletters, hcs, ?_⟩
    intro x hx
    simp [show c₁.advance.rest.head? = none from hc] at hx
  · by_cases hx : x = ' ' ∨ x = '/' ∨ x = '\n'
    · obtain ⟨-, rfl⟩ : _ ∧ c₁.advance = c' := by simpa [hc, hx] using hend
      refine ⟨letters, hletters, hcs, ?_⟩
      intro y hy
      obtain rfl : x = y := by simpa [show c₁.advance.rest.head? = some x from hc] using hy
      exact (Numeral.isStop_iff x).2 hx
    · simp [hc, hx] at hend

/-- The part of a reference behind the literal. -/
def readEnvEnd (name : String) : Parser String := do
  let closing ← skipSpaces
  if closing = some ')' then
    match ← advance with
    | none => pure name
    | some c =>
      if c = ' ' ∨ c = '/' ∨ c = '\n' ∨ c = '}' then pure name else envError (some c)
  else envError closing

/-- The part of a reference behind the opening parenthesis. -/
def readEnvName : Parser String := do
  let opening ← skipSpaces
  if opening = some '"' then
    let name ← mapDiagnostics (fun d => { d with problem := d.problem.insideEnv }) Literal.read
    readEnvEnd name
  else envError opening

theorem readEnv_eq : readEnv =
    spell (fun expected c => c = expected) (.env .endOfText) (fun c => .env (.unexpected c))
      "nv(".toList >>= fun _ => advance >>= fun _ => readEnvName := rfl

theorem readEnvEnd_reads (name : String) (after : Nat) {rest : List Char}
    (hr : ∀ c ∈ rest.head?, Numeral.isStop c = true ∨ c = '}') :
    (readEnvEnd name).Reads (spaces after ++ [')']) rest name silent := by
  intro pos
  have hskip := Cursor.skipSpaces_append after (')' :: rest) (by simp)
  cases rest with
  | nil => simp [readEnvEnd, hskip, silent]
  | cons c cs =>
    have hc : c = ' ' ∨ c = '/' ∨ c = '\n' ∨ c = '}' := by
      simpa [Numeral.isStop_iff, or_assoc] using hr c (by simp)
    simp [readEnvEnd, hskip, hc, silent]

theorem readEnvName_reads (before : Nat) (ps : List Literal.Piece) (after : Nat)
    {rest : List Char} (hr : ∀ c ∈ rest.head?, Numeral.isStop c = true ∨ c = '}') :
    readEnvName.Reads (spaces before ++ (Literal.quotedText ps ++ (spaces after ++ [')']))) rest
      (String.ofList (Literal.content ps)) fun pos =>
        (Literal.reports ps (pos.advance (spaces before))).map
          fun d => { d with problem := d.problem.insideEnv } := by
  intro pos
  have hlit := (Literal.reads_pieces ps ((spaces after ++ [')']) ++ rest)).mapDiagnostics
    fun d => { d with problem := d.problem.insideEnv }
  have hname := hlit.bind (readEnvEnd_reads (String.ofList (Literal.content ps)) after hr)
  have hquote : (Literal.quotedText ps ++ (spaces after ++ [')']) ++ rest).head? = some '"' := rfl
  unfold readEnvName
  rw [List.append_assoc, skipSpaces_bind,
    Cursor.skipSpaces_append before _ (by rw [hquote]; decide), Cursor.current_mk, hquote,
    if_pos rfl, hname]
  simp [silent]

theorem readEnv_reads (before : Nat) (ps : List Literal.Piece) (after : Nat) {rest : List Char}
    (hr : (Form.env before ps after).Follows rest) :
    readEnv.Reads (Form.env before ps after).text rest (String.ofList (Literal.content ps))
      (Form.env before ps after).reports := by
  intro pos
  have hn : ∀ e ∈ "nv(".toList, ∀ c : Char, decide (c = e) = true ↔ id c = e := by simp
  have hname := readEnvName_reads before ps after hr (pos.advance ['e', 'n', 'v', '('])
  rw [readEnv_eq, Form.text, List.append_assoc]
  change (spell _ _ _ "nv(".toList >>= _) ⟨'e' :: (['n', 'v', '('] ++ _), pos⟩ = _
  rw [spell_advance_bind hn (by simp), hname]
  simp [Form.reports]

theorem envError_ne_success {α : Type} (x : Option Char) (c c' : Cursor) (a : α)
    (ds : List Diagnostic) : (envError x : Parser α) c ≠ (.success a ds, c') := by
  cases x <;> simp [envError]

theorem exists_end_of_readEnvEnd {name s : String} {c c' : Cursor} {ds : List Diagnostic}
    (h : readEnvEnd name c = (.success s ds, c')) :
    ∃ after, c.rest = spaces after ++ ')' :: c'.rest ∧
      ∀ x ∈ c'.rest.head?, Numeral.isStop x = true ∨ x = '}' := by
  obtain ⟨after, hrest, -⟩ := c.exists_spaces
  unfold readEnvEnd at h
  rw [skipSpaces_bind] at h
  by_cases hclose : c.skipSpaces.current = some ')'
  · rw [if_pos hclose, advance_bind] at h
    rw [Cursor.rest_eq_cons hclose] at hrest
    rcases hc : c.skipSpaces.advance.current with _ | x
    · obtain ⟨-, rfl⟩ : _ ∧ c.skipSpaces.advance = c' := by simpa [hc] using h
      refine ⟨after, hrest, ?_⟩
      simp [Cursor.rest_eq_nil hc]
    · by_cases hx : x = ' ' ∨ x = '/' ∨ x = '\n' ∨ x = '}'
      · obtain ⟨-, rfl⟩ : _ ∧ c.skipSpaces.advance = c' := by simpa [hc, hx] using h
        refine ⟨after, hrest, ?_⟩
        simpa [Cursor.rest_eq_cons hc, Numeral.isStop_iff, or_assoc] using hx
      · simp only [hc, if_neg hx] at h
        exact absurd h (envError_ne_success _ _ _ _ _)
  · rw [if_neg hclose] at h
    exact absurd h (envError_ne_success _ _ _ _ _)

theorem exists_form_of_readEnv {s : String} {cs : List Char} {pos : Position}
    {ds : List Diagnostic} {c' : Cursor}
    (h : readEnv ⟨'e' :: cs, pos⟩ = (.success s ds, c')) :
    ∃ before ps after, 'e' :: cs = (Form.env before ps after).text ++ c'.rest ∧
      (Form.env before ps after).Follows c'.rest := by
  have hn : ∀ e ∈ "nv(".toList, ∀ c : Char, decide (c = e) = true ↔ id c = e := by simp
  rw [readEnv_eq] at h
  obtain ⟨u, c₁, ds₁, ds₂, hspell, hname, -⟩ := bind_eq_success.1 h
  obtain ⟨letters, hletters, hcs⟩ := exists_letters_of_spell hn hspell
  obtain rfl : letters = "nv(".toList := by simpa using hletters
  rw [List.tail_cons, c₁.tail_rest] at hcs
  rw [advance_bind] at hname
  obtain ⟨before, hbefore, -⟩ := c₁.advance.exists_spaces
  unfold readEnvName at hname
  rw [skipSpaces_bind] at hname
  by_cases hopen : c₁.advance.skipSpaces.current = some '"'
  · rw [if_pos hopen] at hname
    obtain ⟨name, c₂, ds₃, ds₄, hlit, hend, -⟩ := bind_eq_success.1 hname
    obtain ⟨es, hread⟩ := exists_of_mapDiagnostics hlit
    obtain ⟨ps, hps⟩ := Literal.exists_pieces_of_read hopen hread
    obtain ⟨after, hafter, hfollows⟩ := exists_end_of_readEnvEnd hend
    refine ⟨before, ps, after, ?_, hfollows⟩
    simp [hcs, hbefore, hps, hafter, Form.text]
  · rw [if_neg hopen] at hname
    exact absurd hname (envError_ne_success _ _ _ _ _)

/-- A numeral that starts with a point has one, so it is never read as an integer. -/
theorem readNumeral_reads (n : Numeral.Form) {rest : List Char} (h : Numeral.Stops rest) :
    ∃ first cs start, n.text = first :: cs ∧ Numeral.Start.ofChar? first = some start ∧
      (readNumeral start).Reads n.text rest (ofNumber n.value) silent := by
  obtain ⟨first, cs, start, htext, hstart, hsign, hpoint⟩ := n.exists_start
  refine ⟨first, cs, start, htext, hstart, ?_⟩
  intro pos
  have hread := n.reads htext hstart hsign h pos
  have hwarn : numeralWarnings start pos (.success n.value []) = [] := by
    cases hf : n.fraction with
    | none =>
      have hne : start ≠ .point := fun hs => hpoint hs hf
      simp [Numeral.Form.value, hf, numeralWarnings, hne]
    | some ds => simp [Numeral.Form.value, hf, numeralWarnings]
  simp [readNumeral, hread, silent, Outcome.map, hwarn]

theorem exists_form_of_readNumeral {first : Char} {start : Numeral.Start} {cs : List Char}
    {pos : Position} (hstart : Numeral.Start.ofChar? first = some start) {v : Value}
    {ds : List Diagnostic} {c' : Cursor}
    (h : readNumeral start ⟨first :: cs, pos⟩ = (.success v ds, c')) :
    ∃ n : Numeral.Form, first :: cs = n.text ++ c'.rest ∧ Numeral.Stops c'.rest := by
  rcases hread : Numeral.read start ⟨first :: cs, pos⟩ with ⟨⟨n, es⟩ | es, c₁⟩
  · obtain ⟨-, rfl⟩ : _ ∧ c₁ = c' := by simpa [readNumeral, hread, Outcome.map] using h
    exact Numeral.exists_form_of_read hstart hread
  · simp [readNumeral, hread, Outcome.map] at h

/-- The reader that the first character of a value chooses. -/
def readFrom (first : Char) : Parser Value :=
  match Numeral.Start.ofChar? first with
  | some start => readNumeral start
  | none =>
    if first = '"' then return .quoted (← Literal.read)
    else if first = 't' ∨ first = 'T' then return .boolean (← readBoolean true)
    else if first = 'f' ∨ first = 'F' then return .boolean (← readBoolean false)
    else if first = 'e' then return .env (← readEnv)
    else error (.value (.unexpected first))

theorem read_eq_readFrom {c : Cursor} (first : Char) (h : c.current = some first) :
    read c = readFrom first c := by
  rw [read, current_bind, h]
  rfl

theorem readFrom_start {first : Char} {start : Numeral.Start}
    (h : Numeral.Start.ofChar? first = some start) : readFrom first = readNumeral start := by
  simp [readFrom, h]

theorem readFrom_quote : readFrom '"' = (do return .quoted (← Literal.read)) := rfl

theorem readFrom_env : readFrom 'e' = (do return .env (← readEnv)) := rfl

theorem readFrom_truth {truth : Bool} {first : Char} {letters : List Char}
    (h : first.toLower :: letters = word truth) :
    readFrom first = (do return .boolean (← readBoolean truth)) := by
  cases truth with
  | true =>
    have hfirst : first.toLower = 't' := by simpa [word] using congrArg List.head? h
    rcases (toLower_eq_iff (by decide)).1 hfirst with rfl | rfl <;> rfl
  | false =>
    have hfirst : first.toLower = 'f' := by simpa [word] using congrArg List.head? h
    rcases (toLower_eq_iff (by decide)).1 hfirst with rfl | rfl <;> rfl

theorem Form.reads (f : Form) {rest : List Char} (h : f.Follows rest) :
    read.Reads f.text rest f.value f.reports := by
  intro pos
  cases f with
  | literal ps =>
    rw [read_eq_readFrom '"' rfl, readFrom_quote]
    exact (Literal.reads_pieces ps rest).map Value.quoted pos
  | env before ps after =>
    rw [read_eq_readFrom 'e' rfl, readFrom_env]
    exact (readEnv_reads before ps after h).map Value.env pos
  | boolean truth letters hl =>
    obtain ⟨first, letters, rfl⟩ : ∃ first cs, letters = first :: cs := by
      refine List.exists_cons_of_ne_nil ?_
      rintro rfl
      cases truth <;> simp [word] at hl
    rw [List.map_cons] at hl
    have hletters : letters.map Char.toLower =
        if truth then "rue".toList else "alse".toList := by
      have htail := congrArg List.tail hl
      cases truth <;> simpa [word] using htail
    rw [Form.text, read_eq_readFrom first rfl, readFrom_truth hl]
    exact (readBoolean_letters truth first hletters h).map Value.boolean pos
  | numeral n =>
    obtain ⟨first, cs, start, htext, hstart, hread⟩ := readNumeral_reads n h
    have hfirst : (Cursor.mk (n.text ++ rest) pos).current = some first := by simp [htext]
    rw [Form.text, read_eq_readFrom first hfirst, readFrom_start hstart]
    exact hread pos

theorem Form.head?_text_ne_space (f : Form) (rest : List Char) :
    (f.text ++ rest).head? ≠ some ' ' := by
  cases f with
  | literal ps => simp [text, Literal.quotedText]
  | env before ps after => simp [text]
  | boolean truth letters hl =>
    cases letters with
    | nil => cases truth <;> simp [word] at hl
    | cons first letters =>
      have hfirst : some first.toLower = (word truth).head? := by rw [← hl]; rfl
      intro hs
      obtain rfl : first = ' ' := by simpa [text] using hs
      cases truth <;> exact absurd hfirst (by decide)
  | numeral n =>
    obtain ⟨first, cs, start, htext, hstart, -⟩ := n.exists_start
    intro hs
    obtain rfl : first = ' ' := by simpa [text, htext] using hs
    exact absurd hstart (by simp [show Numeral.Start.ofChar? ' ' = none from rfl])

/-- Whether the closing brace may follow the value directly. -/
def Form.joins : Form → Bool
  | .literal _ => true
  | .env .. => true
  | .boolean .. => false
  | .numeral _ => false

theorem Form.follows_of_isStop (f : Form) {c : Char} {rest : List Char}
    (h : Numeral.isStop c = true) : f.Follows (c :: rest) := by
  cases f <;> simp [Follows, Numeral.Stops, h]

theorem Form.follows_brace (f : Form) (rest : List Char) :
    f.Follows ('}' :: rest) ↔ f.joins = true := by
  cases f <;> simp [Follows, joins, Numeral.Stops, Numeral.isStop]

theorem exists_form_of_readBoolean {truth b : Bool} {first : Char} {cs : List Char}
    {pos : Position} {ds : List Diagnostic} {c' : Cursor}
    (h : readBoolean truth ⟨first :: cs, pos⟩ = (.success b ds, c'))
    (hfirst : first.toLower = if truth then 't' else 'f') :
    ∃ f : Form, first :: cs = f.text ++ c'.rest ∧ f.Follows c'.rest := by
  obtain ⟨letters, hletters, rfl, hstops⟩ := exists_letters_of_readBoolean h
  have hword : (first :: letters).map Char.toLower = word truth := by
    rw [List.map_cons, hfirst, hletters]
    cases truth <;> rfl
  exact ⟨.boolean truth (first :: letters) hword, rfl, hstops⟩

/-- A value that was read has a form, and what follows it may follow that form. -/
theorem exists_form_of_read {v : Value} {c c' : Cursor} {ds : List Diagnostic}
    (h : read c = (.success v ds, c')) :
    ∃ f : Form, c.rest = f.text ++ c'.rest ∧ f.Follows c'.rest := by
  obtain ⟨_ | ⟨first, cs⟩, pos⟩ := c
  · simp [read] at h
  · rw [read_eq_readFrom first rfl] at h
    rcases hstart : Numeral.Start.ofChar? first with _ | start
    · unfold readFrom at h
      rw [hstart] at h
      dsimp only at h
      split_ifs at h with hq ht hf he
      · obtain ⟨s, hread, -⟩ := bind_pure_eq_success.1 h
        obtain ⟨ps, hps⟩ := Literal.exists_pieces_of_read (by simp [hq]) hread
        exact ⟨.literal ps, hps, trivial⟩
      · obtain ⟨b, hread, -⟩ := bind_pure_eq_success.1 h
        have hfirst : first.toLower = 't' := (toLower_eq_iff (by decide)).2 ht
        exact exists_form_of_readBoolean hread hfirst
      · obtain ⟨b, hread, -⟩ := bind_pure_eq_success.1 h
        have hfirst : first.toLower = 'f' := (toLower_eq_iff (by decide)).2 hf
        exact exists_form_of_readBoolean hread hfirst
      · obtain ⟨s, hread, -⟩ := bind_pure_eq_success.1 h
        subst he
        obtain ⟨before, ps, after, hps, hfollows⟩ := exists_form_of_readEnv hread
        exact ⟨.env before ps after, hps, hfollows⟩
      · simp at h
    · rw [readFrom_start hstart] at h
      obtain ⟨n, hn, hstops⟩ := exists_form_of_readNumeral hstart h
      exact ⟨.numeral n, hn, hstops⟩

end Value
end ConfigBlock
