import ConfigBlock.Proofs.Form.Value
import Mathlib.Data.List.Forall2

/-!
# References and their literals

A reference is the word `env` with a literal in parentheses, and reading one is reading that
literal and nothing else of its own: the value is the value of the literal, and the reports are
those of the literal, each as a report of the reference. Only where the literal is not reached, or
where what stands behind it does not end a reference, there is one further error, on the character
that does not fit.
-/

namespace ConfigBlock

open ConfigBlock.Parser

namespace Reference

open Value

/-- The cursor `q` stands on the quote of the literal in the reference at `c`. -/
structure Opens (c q : Cursor) : Prop where
  passes : ∃ blanks, c.Passes (['e', 'n', 'v', '('] ++ spaces blanks) q
  quote : q.current = some '"'

/-- Behind the literal that ends at `q`, the reference ends at `c`. -/
structure Closes (q c : Cursor) : Prop where
  passes : ∃ blanks, q.Passes (spaces blanks ++ [')']) c
  follows : ∀ x ∈ c.current, x ∈ [' ', '/', '\n', '}']

/-- The report of a literal and the same report as one of a reference. -/
def Retags (d e : Diagnostic) : Prop :=
  ∃ problem, d.problem = .literal problem ∧ e = { d with problem := .env (.literal problem) }

/-- What is wrong with a character that does not fit, or with the end of the text. -/
def misfit : Option Char → EnvProblem
  | none => .endOfText
  | some x => .unexpected x

def misfitError (c : Cursor) : Diagnostic := c.error (.env (misfit c.current))

theorem opens_iff {c q : Cursor} {rest : List Char} (hrest : c.rest = ['e', 'n', 'v', '('] ++ rest) :
    Opens c q ↔ q.current = some '"' ∧
      (Cursor.mk rest (c.position.advance ['e', 'n', 'v', '('])).skipSpaces = q := by
  have hword : c.Passes ['e', 'n', 'v', '(']
      ⟨rest, c.position.advance ['e', 'n', 'v', '(']⟩ := ⟨hrest, rfl⟩
  constructor
  · rintro ⟨⟨blanks, hpasses⟩, hquote⟩
    have hblanks := (hword.append_iff (spaces blanks)).1 hpasses
    exact ⟨hquote, (Cursor.skipSpaces_eq_iff (by simp [hquote])).2 ⟨blanks, hblanks⟩⟩
  · rintro ⟨hquote, hskip⟩
    obtain ⟨blanks, hblanks⟩ := (Cursor.skipSpaces_eq_iff (by simp [hquote])).1 hskip
    exact ⟨⟨blanks, (hword.append_iff (spaces blanks)).2 hblanks⟩, hquote⟩

theorem closes_iff {q c : Cursor} :
    Closes q c ↔ q.skipSpaces.current = some ')' ∧ q.skipSpaces.advance = c ∧
      ∀ x ∈ c.current, x ∈ [' ', '/', '\n', '}'] := by
  constructor
  · rintro ⟨⟨blanks, hpasses⟩, hfollows⟩
    have hskip : q.skipSpaces = ⟨')' :: c.rest, q.position.advance (spaces blanks)⟩ := by
      refine (Cursor.skipSpaces_eq_iff (by simp)).2 ⟨blanks, ?_, rfl⟩
      rw [hpasses.rest, List.append_assoc]
      rfl
    have hposition := hpasses.position
    rw [Position.advance_append] at hposition
    rw [hskip]
    exact ⟨rfl, congrArg (Cursor.mk c.rest) hposition.symm, hfollows⟩
  · rintro ⟨hclose, rfl, hfollows⟩
    obtain ⟨blanks, hpasses⟩ :=
      (Cursor.skipSpaces_eq_iff (c := q) (by simp [hclose])).1 rfl
    exact ⟨⟨blanks, (hpasses.append_iff [')']).2 (Cursor.passes_advance hclose)⟩, hfollows⟩

theorem Opens.unique {c q q' : Cursor} (h : Opens c q) (h' : Opens c q') : q = q' := by
  obtain ⟨blanks, hpasses⟩ := h.passes
  have hrest : c.rest = ['e', 'n', 'v', '('] ++ (spaces blanks ++ q.rest) := by
    rw [hpasses.rest, List.append_assoc]
  exact ((opens_iff hrest).1 h).2.symm.trans ((opens_iff hrest).1 h').2

theorem Closes.unique {q c c' : Cursor} (h : Closes q c) (h' : Closes q c') : c = c' :=
  (closes_iff.1 h).2.1.symm.trans (closes_iff.1 h').2.1

theorem envError_current {α : Type} (c : Cursor) :
    (envError c.current : Parser α) c = (.failure [misfitError c], c) := by
  rcases hc : c.current with _ | x
  · simp [envError, misfitError, misfit, hc]
  · simp [envError, misfitError, misfit, hc]

/-- A word is spelled out to its end, or the first character that differs does not fit. -/
theorem spell_cases (expected : List Char) (c : Cursor) :
    let spelling := spell (fun expected c => c = expected) (.env .endOfText)
      (fun c => .env (.unexpected c)) expected c
    (∃ c', spelling = (.success () [], c')) ∨ ∃ c', spelling = (.failure [misfitError c'], c') := by
  induction expected generalizing c with
  | nil => exact .inl ⟨c, rfl⟩
  | cons e es ih =>
    rw [spell, advance_bind]
    rcases hc : c.advance.current with _ | x
    · exact .inr ⟨c.advance, by simp [misfitError, misfit, hc]⟩
    · by_cases hx : x = e
      · simpa [hx] using ih c.advance
      · exact .inr ⟨c.advance, by simp [misfitError, misfit, hc, hx]⟩

theorem accepts_iff_eq (e c : Char) : decide (c = e) = true ↔ id c = e := by simp

theorem readEnv_of_word {c : Cursor} {rest : List Char}
    (hrest : c.rest = ['e', 'n', 'v', '('] ++ rest) :
    readEnv c = readEnvName ⟨rest, c.position.advance ['e', 'n', 'v', '(']⟩ := by
  obtain ⟨text, p⟩ := c
  obtain rfl : text = 'e' :: ("nv(".toList ++ rest) := hrest
  rw [readEnv_eq, spell_advance_bind (fun e _ => accepts_iff_eq e) (List.map_id _)]
  rfl

theorem readEnv_of_no_word {c : Cursor} (hc : c.current = some 'e')
    (hword : ∀ rest, c.rest ≠ ['e', 'n', 'v', '('] ++ rest) :
    ∃ c', readEnv c = (.failure [misfitError c'], c') := by
  rw [readEnv_eq]
  rcases spell_cases "nv(".toList c with ⟨c', hspell⟩ | ⟨c', hspell⟩
  · obtain ⟨letters, hletters, htext⟩ :=
      exists_letters_of_spell (fun e _ => accepts_iff_eq e) hspell
    obtain rfl : letters = "nv(".toList := by simpa using hletters
    rw [c.tail_rest] at htext
    exact absurd ((Cursor.rest_eq_cons hc).trans (congrArg _ htext)) (hword _)
  · exact ⟨c', bind_of_failure hspell⟩

def retag (d : Diagnostic) : Diagnostic := { d with problem := d.problem.insideEnv }

theorem readEnvName_eq (c : Cursor) :
    readEnvName c =
      if c.skipSpaces.current = some '"' then
        (mapDiagnostics retag Literal.read >>= readEnvEnd) c.skipSpaces
      else (.failure [misfitError c.skipSpaces], c.skipSpaces) := by
  rw [readEnvName, skipSpaces_bind]
  split_ifs with hopen
  · rfl
  · exact envError_current c.skipSpaces

/-- Behind the literal nothing is reported if the reference ends there, and one error if not. -/
theorem readEnvEnd_cases (name : String) (q : Cursor) :
    (∃ c, Closes q c ∧ readEnvEnd name q = (.success name [], c)) ∨
      (∀ c, ¬Closes q c) ∧ ∃ c, readEnvEnd name q = (.failure [misfitError c], c) := by
  rw [readEnvEnd, skipSpaces_bind]
  by_cases hclose : q.skipSpaces.current = some ')'
  · rw [if_pos hclose, advance_bind]
    by_cases hfollows : ∀ x ∈ q.skipSpaces.advance.current, x ∈ [' ', '/', '\n', '}']
    · refine .inl ⟨q.skipSpaces.advance, closes_iff.2 ⟨hclose, rfl, hfollows⟩, ?_⟩
      rcases hx : q.skipSpaces.advance.current with _ | x
      · simp
      · have hstop : x = ' ' ∨ x = '/' ∨ x = '\n' ∨ x = '}' := by simpa [hx] using hfollows
        simp [hstop]
    · refine .inr ⟨?_, q.skipSpaces.advance, ?_⟩
      · intro c hcloses
        obtain ⟨-, rfl, hends⟩ := closes_iff.1 hcloses
        exact hfollows hends
      · rcases hx : q.skipSpaces.advance.current with _ | x
        · simp [hx] at hfollows
        · have hstop : ¬(x = ' ' ∨ x = '/' ∨ x = '\n' ∨ x = '}') := by simpa [hx] using hfollows
          have herror := envError_current (α := String) q.skipSpaces.advance
          rw [hx] at herror
          simpa [hstop] using herror
  · rw [if_neg hclose]
    refine .inr ⟨?_, q.skipSpaces, envError_current q.skipSpaces⟩
    intro c hcloses
    exact hclose (closes_iff.1 hcloses).1

/-- How reading a reference can turn out. -/
inductive Reading (c : Cursor) : Outcome String × Cursor → Prop
  | unopened {c' : Cursor} (hopen : ∀ q, ¬Opens c q) :
      Reading c (.failure [misfitError c'], c')
  | unread {q q' : Cursor} {ds : List Diagnostic} (hopen : Opens c q)
      (hread : Literal.read q = (.failure ds, q')) : Reading c (.failure (ds.map retag), q')
  | unclosed {q q' c' : Cursor} {s : String} {ds : List Diagnostic} (hopen : Opens c q)
      (hread : Literal.read q = (.success s ds, q')) (hclose : ∀ c', ¬Closes q' c') :
      Reading c (.failure (ds.map retag ++ [misfitError c']), c')
  | complete {q q' c' : Cursor} {s : String} {ds : List Diagnostic} (hopen : Opens c q)
      (hread : Literal.read q = (.success s ds, q')) (hclose : Closes q' c') :
      Reading c (.success s (ds.map retag), c')

theorem reading_of_opens {c q : Cursor} (hopen : Opens c q) :
    Reading c ((mapDiagnostics retag Literal.read >>= readEnvEnd) q) := by
  rcases hread : Literal.read q with ⟨⟨s, ds⟩ | ds, q'⟩
  · have hname : mapDiagnostics retag Literal.read q = (.success s (ds.map retag), q') := by
      simp [mapDiagnostics, hread, Outcome.mapDiagnostics]
    rw [bind_of_success hname]
    rcases readEnvEnd_cases s q' with ⟨c', hclose, hend⟩ | ⟨hclose, c', hend⟩
    · rw [hend, Outcome.withLeading_success, List.append_nil]
      exact .complete hopen hread hclose
    · rw [hend, Outcome.withLeading_failure]
      exact .unclosed hopen hread hclose
  · have hname : mapDiagnostics retag Literal.read q = (.failure (ds.map retag), q') := by
      simp [mapDiagnostics, hread, Outcome.mapDiagnostics]
    rw [bind_of_failure hname]
    exact .unread hopen hread

theorem reading_readEnv {c : Cursor} (hc : c.current = some 'e') : Reading c (readEnv c) := by
  by_cases hword : ∃ rest, c.rest = ['e', 'n', 'v', '('] ++ rest
  · obtain ⟨rest, hrest⟩ := hword
    rw [readEnv_of_word hrest, readEnvName_eq]
    split_ifs with hquote
    · exact reading_of_opens ((opens_iff hrest).2 ⟨hquote, rfl⟩)
    · refine .unopened fun q hopen => hquote ?_
      obtain ⟨hq, rfl⟩ := (opens_iff hrest).1 hopen
      exact hq
  · obtain ⟨c', hread⟩ := readEnv_of_no_word hc (not_exists.1 hword)
    rw [hread]
    refine .unopened fun q hopen => ?_
    obtain ⟨blanks, hpasses⟩ := hopen.passes
    exact hword ⟨_, hpasses.rest.trans (List.append_assoc ..)⟩

theorem exists_problem_of_warnings {p : Position} {scan : Literal.Scan} {d : Diagnostic}
    (hd : d ∈ Literal.warnings p scan) : ∃ problem, d.problem = .literal problem := by
  unfold Literal.warnings at hd
  split_ifs at hd
  · obtain rfl := List.mem_singleton.1 hd
    exact ⟨_, rfl⟩
  · cases hd

theorem exists_problem_of_literal {q : Cursor} {d : Diagnostic}
    (hd : d ∈ (Literal.read q).1.diagnostics) : ∃ problem, d.problem = .literal problem := by
  unfold Literal.read at hd
  dsimp only at hd
  split at hd
  · exact exists_problem_of_warnings hd
  · rcases List.mem_append.1 hd with hd | hd
    · exact exists_problem_of_warnings hd
    · obtain rfl := List.mem_singleton.1 hd
      exact ⟨_, rfl⟩
  · rcases List.mem_append.1 hd with hd | hd
    · exact exists_problem_of_warnings hd
    · obtain rfl := List.mem_singleton.1 hd
      exact ⟨_, rfl⟩

theorem forall₂_retags (q : Cursor) :
    List.Forall₂ Retags (Literal.read q).1.diagnostics
      ((Literal.read q).1.diagnostics.map retag) := by
  rw [List.forall₂_map_right_iff, List.forall₂_same]
  intro d hd
  obtain ⟨problem, hproblem⟩ := exists_problem_of_literal hd
  exact ⟨problem, hproblem, by simp [retag, hproblem]⟩

theorem Reading.exists_problem {c : Cursor} {r : Outcome String × Cursor} (h : Reading c r) :
    ∀ d ∈ r.1.diagnostics, ∃ problem, d.problem = .env problem := by
  have hretag {q q' : Cursor} {o : Outcome String} (hread : Literal.read q = (o, q')) :
      ∀ d ∈ o.diagnostics.map retag, ∃ problem, d.problem = .env problem := by
    intro d hd
    obtain ⟨e, he, rfl⟩ := List.mem_map.1 hd
    obtain ⟨problem, hproblem⟩ := exists_problem_of_literal (q := q) (by rw [hread]; exact he)
    exact ⟨.literal problem, by simp [retag, hproblem]⟩
  have hmisfit (c' : Cursor) : ∀ d ∈ [misfitError c'], ∃ problem, d.problem = .env problem := by
    intro d hd
    obtain rfl := List.mem_singleton.1 hd
    exact ⟨_, rfl⟩
  cases h with
  | unopened => exact hmisfit _
  | unread _ hread => exact hretag hread
  | unclosed _ hread => exact List.forall_mem_append.2 ⟨hretag hread, hmisfit _⟩
  | complete _ hread => exact hretag hread

theorem Reading.success_iff {c : Cursor} {r : Outcome String × Cursor} (h : Reading c r)
    (s : String) (c' : Cursor) :
    (∃ ds, r = (.success s ds, c')) ↔
      ∃ q q' ds, Opens c q ∧ Literal.read q = (.success s ds, q') ∧ Closes q' c' := by
  constructor
  · rintro ⟨ds, rfl⟩
    cases h with
    | complete hopen hread hclose => exact ⟨_, _, _, hopen, hread, hclose⟩
  · rintro ⟨q, q', ds, hopen, hread, hclose⟩
    cases h with
    | unopened hnone => exact absurd hopen (hnone q)
    | unread hopen' hread' =>
      obtain rfl := hopen'.unique hopen
      simp [hread] at hread'
    | unclosed hopen' hread' hnone =>
      obtain rfl := hopen'.unique hopen
      obtain ⟨-, rfl⟩ := Prod.mk.inj (hread.symm.trans hread')
      exact absurd hclose (hnone c')
    | complete hopen' hread' hclose' =>
      obtain rfl := hopen'.unique hopen
      obtain ⟨hsame, rfl⟩ := Prod.mk.inj (hread.symm.trans hread')
      obtain ⟨rfl, rfl⟩ := Outcome.success.inj hsame
      obtain rfl := hclose'.unique hclose
      exact ⟨_, rfl⟩

theorem Reading.of_unopened {c : Cursor} {r : Outcome String × Cursor} (h : Reading c r)
    (hnone : ∀ q, ¬Opens c q) : r.1 = .failure [misfitError r.2] := by
  cases h with
  | unopened => rfl
  | unread hopen => exact absurd hopen (hnone _)
  | unclosed hopen => exact absurd hopen (hnone _)
  | complete hopen => exact absurd hopen (hnone _)

theorem Reading.diagnostics_eq {c q : Cursor} {r : Outcome String × Cursor} (h : Reading c r)
    (hopen : Opens c q) :
    r.1.diagnostics = (Literal.read q).1.diagnostics.map retag ++
      if r.1.isFailure ∧ (Literal.read q).1.isSuccess then [misfitError r.2] else [] := by
  cases h with
  | unopened hnone => exact absurd hopen (hnone q)
  | unread hopen' hread =>
    obtain rfl := hopen'.unique hopen
    simp [hread, Outcome.diagnostics, Outcome.isSuccess]
  | unclosed hopen' hread =>
    obtain rfl := hopen'.unique hopen
    simp [hread, Outcome.diagnostics, Outcome.isSuccess, Outcome.isFailure]
  | complete hopen' hread =>
    obtain rfl := hopen'.unique hopen
    simp [hread, Outcome.diagnostics, Outcome.isSuccess, Outcome.isFailure]

/-- Reading a reference is reading its literal between the parts that are always the same. It
succeeds with a name exactly if these parts are there and the literal has that content, and stops
on the character behind. Everything that is reported is a problem of references: first what the
literal reports, in order and in place, and then at most one error, at the character that does not
fit, exactly if reading failed and not in the literal. -/
theorem readEnv_composition {c : Cursor} (hc : c.current = some 'e') :
    (∀ s c', (∃ ds, readEnv c = (.success s ds, c')) ↔
      ∃ q q' ds, Opens c q ∧ Literal.read q = (.success s ds, q') ∧ Closes q' c') ∧
    (∀ d ∈ (readEnv c).1.diagnostics, ∃ problem, d.problem = .env problem) ∧
    ((∀ q, ¬Opens c q) → (readEnv c).1 = .failure [misfitError (readEnv c).2]) ∧
    ∀ q, Opens c q → ∃ nested further,
      (readEnv c).1.diagnostics = nested ++ further ∧
      List.Forall₂ Retags (Literal.read q).1.diagnostics nested ∧
      further = if (readEnv c).1.isFailure ∧ (Literal.read q).1.isSuccess then
        [misfitError (readEnv c).2] else [] := by
  have hreading := reading_readEnv hc
  refine ⟨hreading.success_iff, hreading.exists_problem, hreading.of_unopened, ?_⟩
  intro q hopen
  exact ⟨_, _, hreading.diagnostics_eq hopen, forall₂_retags q, rfl⟩

/-- A literal with a control character in it, closed and followed by a brace, and the same literal
followed by something else: the warning is kept in both cases. -/
theorem readEnv_composition_control :
    (∃ ds, readEnv (.ofText "env( \"a\tb\" )\x7d") =
      (.success "ab" ds, ⟨['\x7d'], ⟨12, 1, 13⟩⟩)) ∧
    ∃ nested further, (readEnv (.ofText "env(\"a\tb\"]")).1.diagnostics = nested ++ further ∧
      List.Forall₂ Retags [⟨.literal .controlCharacter, 1, 5, .warning⟩] nested ∧
      further = [⟨.env (.unexpected ']'), 1, 10, .error⟩] := by
  constructor
  · have hc : (Cursor.ofText "env( \"a\tb\" )\x7d").current = some 'e' := by decide +kernel
    have hread : Literal.read ⟨"\"a\tb\" )\x7d".toList, ⟨5, 1, 6⟩⟩ =
        (.success "ab" [⟨.literal .controlCharacter, 1, 6, .warning⟩],
          ⟨" )\x7d".toList, ⟨10, 1, 11⟩⟩) := by decide +kernel
    have hopen : Opens (.ofText "env( \"a\tb\" )\x7d") ⟨"\"a\tb\" )\x7d".toList, ⟨5, 1, 6⟩⟩ :=
      ⟨⟨1, by decide +kernel, by decide +kernel⟩, by decide +kernel⟩
    have hclose : Closes ⟨" )\x7d".toList, ⟨10, 1, 11⟩⟩ ⟨['\x7d'], ⟨12, 1, 13⟩⟩ :=
      ⟨⟨1, by decide +kernel, by decide +kernel⟩, by simp⟩
    exact ((readEnv_composition hc).1 _ _).2 ⟨_, _, _, hopen, hread, hclose⟩
  · have hc : (Cursor.ofText "env(\"a\tb\"]").current = some 'e' := by decide +kernel
    have hopen : Opens (.ofText "env(\"a\tb\"]") ⟨"\"a\tb\"]".toList, ⟨4, 1, 5⟩⟩ :=
      ⟨⟨0, by decide +kernel, by decide +kernel⟩, by decide +kernel⟩
    obtain ⟨nested, further, hall, hnested, hfurther⟩ := (readEnv_composition hc).2.2.2 _ hopen
    have hreports : (Literal.read ⟨"\"a\tb\"]".toList, ⟨4, 1, 5⟩⟩).1.diagnostics =
        [⟨.literal .controlCharacter, 1, 5, .warning⟩] := by decide +kernel
    rw [hreports] at hnested
    refine ⟨nested, further, hall, hnested, hfurther.trans ?_⟩
    decide +kernel

end Reference
end ConfigBlock
