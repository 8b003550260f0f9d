import ConfigBlock.Proofs.Reading
import ConfigBlock.Line.Reader
import Mathlib.Tactic.SplitIfs

/-!
# What a reading depends on

Reading the part of a line is local: it finds the same at every position, it stays on its
line, and of the text behind it sees nothing but the first character. `LocalOn` says this of a
parser, with the character it starts on and what is known of the one it stops at, and is closed
under sequencing. A parser that reads to the end of a line can turn out in three ways, listed by
`Turns`; once it has stepped over the newline, the text behind does not matter at all.
-/

namespace ConfigBlock

open ConfigBlock.Parser

/-- A report without its place. `before` is the text between the start of the reading and the
place. -/
structure Remark where
  before : List Char
  problem : Problem
  severity : Severity

namespace Remark

/-- The report of a reading that starts at `pos`. -/
def placed (pos : Position) (r : Remark) : Diagnostic :=
  .located (pos.advance r.before) r.problem r.severity

/-- The remark as one of a reading that starts in front of `word`. -/
def behind (word : List Char) (r : Remark) : Remark := { r with before := word ++ r.before }

@[simp] theorem placed_behind (word : List Char) (pos : Position) (r : Remark) :
    (r.behind word).placed pos = r.placed (pos.advance word) := by
  simp [placed, behind]

/-- All the remarks are made on the line where the reading starts. -/
def OnLine (rs : List Remark) : Prop := ∀ r ∈ rs, '\n' ∉ r.before

namespace OnLine

@[simp] theorem nil : OnLine [] := by simp [OnLine]

@[simp] theorem cons_iff (r : Remark) (rs : List Remark) :
    OnLine (r :: rs) ↔ '\n' ∉ r.before ∧ OnLine rs := by
  simp [OnLine]

@[simp] theorem append_iff (rs rs' : List Remark) : OnLine (rs ++ rs') ↔ OnLine rs ∧ OnLine rs' :=
  List.forall_mem_append

theorem behind {word : List Char} (hword : '\n' ∉ word) {rs : List Remark} (h : OnLine rs) :
    OnLine (rs.map (·.behind word)) := by
  intro r hr
  obtain ⟨r', hr', rfl⟩ := List.mem_map.1 hr
  simp [Remark.behind, hword, h r' hr']

end OnLine
end Remark

/-- What a reading finds, apart from where it starts. -/
inductive Finding (α : Type) where
  | success (value : α) (remarks : List Remark)
  | failure (remarks : List Remark)

namespace Finding

variable {α β : Type}

def isSuccess : Finding α → Bool
  | .success .. => true
  | .failure _ => false

def remarks : Finding α → List Remark
  | .success _ rs => rs
  | .failure rs => rs

/-- The outcome of a reading that starts at `pos`. -/
def outcome (pos : Position) : Finding α → Outcome α
  | .success a rs => .success a (rs.map (·.placed pos))
  | .failure rs => .failure (rs.map (·.placed pos))

/-- The finding of a second reading, as one of both: the first went over `word`, with remarks
`rs`. -/
def after (word : List Char) (rs : List Remark) : Finding α → Finding α
  | .success a rs' => .success a (rs ++ rs'.map (·.behind word))
  | .failure rs' => .failure (rs ++ rs'.map (·.behind word))

def mapProblem (g : Problem → Problem) : Finding α → Finding α
  | .success a rs => .success a (rs.map fun r => { r with problem := g r.problem })
  | .failure rs => .failure (rs.map fun r => { r with problem := g r.problem })

/-- A value that was found satisfies `post`. -/
def Ensures (post : α → Prop) : Finding α → Prop
  | .success a _ => post a
  | .failure _ => True

@[simp] theorem isSuccess_outcome (pos : Position) (f : Finding α) :
    (f.outcome pos).isSuccess = f.isSuccess := by
  cases f <;> rfl

theorem outcome_after (word : List Char) (rs : List Remark) (f : Finding α) (pos : Position) :
    (f.after word rs).outcome pos =
      (f.outcome (pos.advance word)).withLeading (rs.map (·.placed pos)) := by
  cases f <;> simp [after, outcome, Function.comp_def]

theorem remarks_after (word : List Char) (rs : List Remark) (f : Finding α) :
    (f.after word rs).remarks = rs ++ f.remarks.map (·.behind word) := by
  cases f <;> rfl

theorem outcome_mapProblem (g : Problem → Problem) (f : Finding α) (pos : Position) :
    (f.mapProblem g).outcome pos =
      (f.outcome pos).mapDiagnostics fun d => { d with problem := g d.problem } := by
  cases f <;> simp [mapProblem, outcome, Outcome.mapDiagnostics, Function.comp_def,
    Remark.placed, Diagnostic.located]

theorem remarks_mapProblem (g : Problem → Problem) (f : Finding α) :
    (f.mapProblem g).remarks = f.remarks.map fun r => { r with problem := g r.problem } := by
  cases f <;> rfl

theorem Ensures.after {post : α → Prop} {f : Finding α} (h : f.Ensures post) (word : List Char)
    (rs : List Remark) : (f.after word rs).Ensures post := by
  cases f <;> exact h

end Finding

namespace Parser

variable {α β : Type} {x : Option Char}

/-- In front of `word` and then `rest`, the parser steps over exactly `word` and finds `found`. -/
def Gives (p : Parser α) (word rest : List Char) (found : Finding α) : Prop :=
  ∀ pos, p ⟨word ++ rest, pos⟩ = (found.outcome pos, ⟨rest, pos.advance word⟩)

namespace Gives

theorem bind {p : Parser α} {f : α → Parser β} {w w' rest : List Char} {a : α}
    {rs : List Remark} {found : Finding β} (hp : Gives p w (w' ++ rest) (.success a rs))
    (hf : Gives (f a) w' rest found) : Gives (p >>= f) (w ++ w') rest (found.after w rs) := by
  intro pos
  have hfirst := hp pos
  rw [← List.append_assoc] at hfirst
  rw [bind_of_success hfirst, hf (pos.advance w), found.outcome_after]
  simp

theorem bind_failure {p : Parser α} {w rest : List Char} {rs : List Remark}
    (hp : Gives p w rest (.failure rs)) (f : α → Parser β) :
    Gives (p >>= f) w rest (.failure rs) := by
  intro pos
  rw [bind_of_failure (hp pos)]
  rfl

theorem map {p : Parser α} {w rest : List Char} {a : α} {rs : List Remark}
    (hp : Gives p w rest (.success a rs)) (g : α → β) :
    Gives (p >>= fun a => Pure.pure (g a)) w rest (.success (g a) rs) := by
  intro pos
  rw [bind_of_success (hp pos)]
  simp [Finding.outcome]

end Gives

/-- The parser steps over `word`, which lies on one line, and makes its remarks there. It finds
the same whatever follows, as long as that starts with the first character of `rest`. -/
structure Finds (p : Parser α) (word rest : List Char) (found : Finding α) : Prop where
  word_line : '\n' ∉ word
  remarks_line : Remark.OnLine found.remarks
  gives : ∀ rest', rest'.head? = rest.head? → Gives p word rest' found

theorem head?_append_congr {rest rest' : List Char} (h : rest'.head? = rest.head?)
    (word : List Char) : (word ++ rest').head? = (word ++ rest).head? := by
  simp [List.head?_append, h]

namespace Finds

theorem at_end {p : Parser α} {word : List Char} {found : Finding α}
    (h : Finds p word [] found) (pos : Position) :
    p ⟨word, pos⟩ = (found.outcome pos, ⟨[], pos.advance word⟩) := by
  simpa using h.gives [] rfl pos

theorem bind {p : Parser α} {f : α → Parser β} {w w' rest : List Char} {a : α}
    {rs : List Remark} {found : Finding β} (hp : Finds p w (w' ++ rest) (.success a rs))
    (hf : Finds (f a) w' rest found) : Finds (p >>= f) (w ++ w') rest (found.after w rs) where
  word_line := by simp [hp.word_line, hf.word_line]
  remarks_line := by
    rw [found.remarks_after, Remark.OnLine.append_iff]
    exact ⟨hp.remarks_line, hf.remarks_line.behind hp.word_line⟩
  gives rest' h := (hp.gives _ (head?_append_congr h w')).bind (hf.gives rest' h)

theorem bind_failure {p : Parser α} {w rest : List Char} {rs : List Remark}
    (hp : Finds p w rest (.failure rs)) (f : α → Parser β) :
    Finds (p >>= f) w rest (.failure rs) :=
  ⟨hp.word_line, hp.remarks_line, fun rest' h => (hp.gives rest' h).bind_failure f⟩

theorem map {p : Parser α} {w rest : List Char} {a : α} {rs : List Remark}
    (hp : Finds p w rest (.success a rs)) (g : α → β) :
    Finds (p >>= fun a => Pure.pure (g a)) w rest (.success (g a) rs) :=
  ⟨hp.word_line, hp.remarks_line, fun rest' h => (hp.gives rest' h).map g⟩

theorem of_still {p : Parser α} {rest : List Char} (found : Finding α)
    (hr : Remark.OnLine found.remarks)
    (hp : ∀ c : Cursor, c.current = rest.head? → p c = (found.outcome c.position, c)) :
    Finds p [] rest found :=
  ⟨by simp, hr, fun rest' h pos => hp ⟨rest', pos⟩ h⟩

/-- A parser that stops in front of `rest` and reports an error there. -/
theorem of_error {p : Parser α} {word rest : List Char} {rs : List Remark} (problem : Problem)
    (hword : '\n' ∉ word) (hrs : Remark.OnLine rs)
    (hp : ∀ rest', rest'.head? = rest.head? → ∀ pos : Position, p ⟨word ++ rest', pos⟩ =
      (.failure (rs.map (·.placed pos) ++ [(Cursor.mk rest' (pos.advance word)).error problem]),
        ⟨rest', pos.advance word⟩)) :
    Finds p word rest (.failure (rs ++ [⟨word, problem, .error⟩])) where
  word_line := hword
  remarks_line := by simpa [Finding.remarks, hword] using hrs
  gives rest' h pos := by
    rw [hp rest' h pos]
    simp [Finding.outcome, Remark.placed, Cursor.error]

end Finds

/-- Starting on `x`, the parser is local, and a value it finds satisfies `post` together with
the character it stops at. -/
def LocalOn (x : Option Char) (p : Parser α) (post : α → Option Char → Prop) : Prop :=
  ∀ text : List Char, text.head? = x → ∃ word rest found, text = word ++ rest ∧
    Finds p word rest found ∧ found.Ensures (post · rest.head?)

def anything : α → Option Char → Prop := fun _ _ => True

namespace LocalOn

variable {post : α → Option Char → Prop}

theorem of_still {p : Parser α} (found : Finding α) (hr : Remark.OnLine found.remarks)
    (hp : ∀ c : Cursor, c.current = x → p c = (found.outcome c.position, c))
    (hpost : found.Ensures (post · x)) : LocalOn x p post := by
  rintro text rfl
  exact ⟨[], text, found, rfl, .of_still found hr hp, hpost⟩

theorem pure {a : α} (h : post a x) : LocalOn x (Pure.pure a) post :=
  of_still (.success a []) (by simp [Finding.remarks]) (fun _ _ => rfl) h

theorem error (problem : Problem) : LocalOn x (error problem) post :=
  of_still (.failure [⟨[], problem, .error⟩]) (by simp [Finding.remarks]) (fun _ _ => rfl) trivial

theorem warning (problem : Problem) : LocalOn x (warning problem) fun _ y => y = x :=
  of_still (.success () [⟨[], problem, .warning⟩]) (by simp [Finding.remarks]) (fun _ _ => rfl) rfl

theorem current : LocalOn x current fun a y => a = y :=
  of_still (.success x []) (by simp [Finding.remarks])
    (fun _ h => by simp [Parser.current, h, Finding.outcome]) rfl

theorem bind {p : Parser α} {f : α → Parser β} {post' : β → Option Char → Prop}
    (hp : LocalOn x p post) (hf : ∀ a y, post a y → LocalOn y (f a) post') :
    LocalOn x (p >>= f) post' := by
  intro text hx
  obtain ⟨word, rest, found, rfl, hfirst, hpost⟩ := hp text hx
  cases found with
  | failure rs => exact ⟨word, rest, _, rfl, hfirst.bind_failure f, trivial⟩
  | success a rs =>
    obtain ⟨word', rest', found', rfl, hsecond, hpost'⟩ := hf a _ hpost rest rfl
    exact ⟨word ++ word', rest', _, by simp, hfirst.bind hsecond, hpost'.after _ _⟩

theorem map {p : Parser α} (hp : LocalOn x p post) (g : α → β) :
    LocalOn x (p >>= fun a => Pure.pure (g a)) anything :=
  hp.bind fun _ _ _ => .pure trivial

theorem advance (hx : x ≠ some '\n') : LocalOn x advance fun a y => a = y := by
  rintro text rfl
  cases text with
  | nil =>
    refine ⟨[], [], .success none [], rfl, ⟨by simp, by simp [Finding.remarks], ?_⟩, rfl⟩
    intro rest' h pos
    obtain rfl : rest' = [] := List.head?_eq_none_iff.1 h
    rfl
  | cons c cs =>
    have hc : c ≠ '\n' := by simpa using hx
    refine ⟨[c], cs, .success cs.head? [], rfl,
      ⟨by simpa using hc.symm, by simp [Finding.remarks], ?_⟩, rfl⟩
    intro rest' h pos
    simp [h, Finding.outcome]

/-- A parser that steps over a run of characters, which no newline can belong to, and looks at
the run and at the character behind it. -/
theorem of_run {p : Parser α} (test : Char → Bool) (htest : test '\n' = false)
    (g : List Char → Option Char → α)
    (hp : ∀ c : Cursor, p c =
      (.success (g (c.run test) (c.skipWhile test).current) [], c.skipWhile test))
    (hpost : ∀ word y, post (g word y) y) : LocalOn x p post := by
  intro text _
  obtain ⟨word, hrun⟩ : ∃ word, (Cursor.ofChars text).run test = word := ⟨_, rfl⟩
  obtain ⟨rest, hrest⟩ : ∃ rest, ((Cursor.ofChars text).skipWhile test).rest = rest := ⟨_, rfl⟩
  have htext : text = word ++ rest :=
    hrun ▸ hrest ▸ (Cursor.ofChars text).rest_eq_run_append test
  have hword : ∀ c ∈ word, test c = true := fun c hc => Cursor.of_mem_run (hrun ▸ hc)
  refine ⟨word, rest, .success (g word rest.head?) [], htext,
    ⟨?_, by simp [Finding.remarks], ?_⟩, hpost _ _⟩
  · intro hn
    simpa [htest] using hword _ hn
  · intro rest' h pos
    have hstop : ∀ c ∈ rest'.head?, test c = false := by
      intro c hc
      rw [h, ← hrest] at hc
      exact Cursor.of_mem_current_skipWhile hc
    rw [hp, Cursor.run_append hword _ hstop, Cursor.skipWhile_append hword _ hstop]
    simp [Finding.outcome, h]

theorem takeWhile {test : Char → Bool} (htest : test '\n' = false) :
    LocalOn x (takeWhile test) anything :=
  of_run test htest (fun word _ => word) (fun _ => rfl) fun _ _ => trivial

theorem skipSpaces : LocalOn x skipSpaces fun a y => a = y :=
  of_run CharClass.isSpace (by decide) (fun _ y => y) (fun _ => rfl) fun _ _ => rfl

theorem mapProblem {p : Parser α} (hp : LocalOn x p post) (g : Problem → Problem) :
    LocalOn x (mapDiagnostics (fun d => { d with problem := g d.problem }) p) post := by
  intro text hx
  obtain ⟨word, rest, found, rfl, hfinds, hpost⟩ := hp text hx
  refine ⟨word, rest, found.mapProblem g, rfl, ⟨hfinds.word_line, ?_, ?_⟩, ?_⟩
  · rw [found.remarks_mapProblem]
    intro r hr
    obtain ⟨r', hr', rfl⟩ := List.mem_map.1 hr
    exact hfinds.remarks_line r' hr'
  · intro rest' h pos
    rw [Parser.mapDiagnostics, hfinds.gives rest' h pos, found.outcome_mapProblem]
  · cases found <;> exact hpost

theorem spell {accepts : Char → Char → Bool} (atEnd : Problem) (unexpected : Char → Problem)
    {expected : List Char} (haccepts : ∀ e ∈ expected, accepts e '\n' = false)
    (hx : x ≠ some '\n') :
    LocalOn x (spell accepts atEnd unexpected expected) fun _ y => y ≠ some '\n' := by
  induction expected generalizing x with
  | nil => exact .pure hx
  | cons e es ih =>
    refine .bind (.advance hx) ?_
    rintro y _ rfl
    cases y with
    | none => exact .error _
    | some c =>
      dsimp only
      split_ifs with hc
      · apply ih fun e' he' => haccepts e' (by simp [he'])
        rintro ⟨⟩
        simp [haccepts e (by simp)] at hc
      · exact .error _

end LocalOn

/-- How a parser that reads to the end of the line can turn out in front of a text: it fails on
the line, or it steps over the newline, or the text is over before that. -/
inductive Turns (p : Parser α) : List Char → Prop
  | fails {word rest : List Char} {rs : List Remark} (h : Finds p word rest (.failure rs)) :
      Turns p (word ++ rest)
  | ends {word rest : List Char} {a : α} {rs : List Remark} (word_line : '\n' ∉ word)
      (remarks_line : Remark.OnLine rs)
      (h : ∀ rest', Gives p (word ++ ['\n']) rest' (.success a rs)) :
      Turns p (word ++ '\n' :: rest)
  | breaksOff {word : List Char} {a : α} {rs : List Remark}
      (h : Finds p word [] (.success a rs)) : Turns p word

/-- Starting on `x`, the parser reads the line to its end. -/
def EndsOn (x : Option Char) (p : Parser α) : Prop :=
  ∀ text : List Char, text.head? = x → Turns p text

namespace EndsOn

theorem bind {p : Parser α} {f : α → Parser β} {post : α → Option Char → Prop}
    (hp : LocalOn x p post) (hf : ∀ a y, post a y → EndsOn y (f a)) : EndsOn x (p >>= f) := by
  intro text hx
  obtain ⟨word, rest, found, rfl, hfirst, hpost⟩ := hp text hx
  cases found with
  | failure rs => exact .fails (hfirst.bind_failure f)
  | success a rs =>
    cases hf a _ hpost rest rfl with
    | fails h =>
      rw [← List.append_assoc]
      exact .fails (hfirst.bind h)
    | @ends word' rest' b _ word_line remarks_line h =>
      rw [← List.append_assoc]
      refine .ends (by simp [hfirst.word_line, word_line])
        ((Remark.OnLine.append_iff _ _).2
          ⟨hfirst.remarks_line, remarks_line.behind hfirst.word_line⟩) (a := b) ?_
      intro rest''
      have hhead : (word' ++ ['\n'] ++ rest'').head? = (word' ++ '\n' :: rest').head? := by
        cases word' <;> rfl
      rw [List.append_assoc]
      exact (hfirst.gives _ hhead).bind (h rest'')
    | breaksOff h => exact .breaksOff (Finds.bind (by simpa using hfirst) h)

theorem map {p : Parser α} (hp : EndsOn x p) (g : α → β) :
    EndsOn x (p >>= fun a => Pure.pure (g a)) := by
  intro text hx
  cases hp text hx with
  | fails h => exact .fails (h.bind_failure _)
  | ends word_line remarks_line h => exact .ends word_line remarks_line fun rest' => (h rest').map g
  | breaksOff h => exact .breaksOff (h.map g)

theorem error (problem : Problem) : EndsOn x (error problem : Parser α) := by
  intro text _
  have hfinds : Finds (Parser.error problem : Parser α) [] text
      (.failure [⟨[], problem, .error⟩]) :=
    .of_still _ (by simp [Finding.remarks]) fun _ _ => rfl
  exact .fails hfinds

theorem pure_end (a : α) : EndsOn none (Pure.pure a) := by
  intro text hx
  obtain rfl : text = [] := List.head?_eq_none_iff.1 hx
  exact .breaksOff (.of_still (.success a []) (by simp [Finding.remarks]) fun _ _ => rfl)

theorem newline (a : α) : EndsOn (some '\n') (Parser.advance >>= fun _ => Pure.pure a) := by
  intro text hx
  obtain ⟨rest, rfl⟩ := List.head?_eq_some_iff.1 hx
  have hgives (rest' : List Char) :
      Gives (Parser.advance >>= fun _ => Pure.pure a) ([] ++ ['\n']) rest' (.success a []) := by
    intro pos
    simp [Finding.outcome]
  exact .ends (by simp) .nil hgives

theorem skipLine (g : List Char → α) :
    EndsOn x (Parser.skipLine >>= fun text => Pure.pure (g text)) := by
  intro text _
  rcases (Cursor.ofChars text).exists_line with ⟨word, hword, htext⟩ | ⟨hnone, -⟩
  · have hsplit : text = word ++ '\n' :: (Cursor.ofChars text).skipLine.rest := htext
    rw [hsplit]
    refine .ends (a := g word) hword .nil ?_
    intro rest' pos
    simp [Cursor.skipLine_append hword, Cursor.lineText_append hword, Finding.outcome]
  · have hword : '\n' ∉ text := hnone
    refine .breaksOff (a := g (Cursor.ofChars text).lineText) ⟨hword, .nil, ?_⟩
    intro rest' h pos
    obtain rfl : rest' = [] := List.head?_eq_none_iff.1 h
    have hline : (Cursor.mk text pos).lineText = (Cursor.ofChars text).lineText := rfl
    simp [hline, Cursor.skipLine_of_notMem hword, Finding.outcome]

end EndsOn
end Parser

namespace Literal

/-- The scan of `cs` goes over text of one line and stops in front of the rest, of which it sees
no more than the first character. -/
def ScansLocally (escaped : Bool) (cs : List Char) : Prop :=
  ∃ word rest content control stop, cs = word ++ rest ∧ '\n' ∉ word ∧
    (stop = .quote → rest.head? = some '"') ∧
      ∀ rest', rest'.head? = rest.head? → ∀ p, scan escaped p (word ++ rest') =
        ⟨content, control, stop, ⟨rest', p.advance word⟩⟩

theorem scansLocally_of_stop {escaped : Bool} (stop : Stop) {cs : List Char}
    (hquote : stop = .quote → cs.head? = some '"')
    (h : ∀ cs', cs'.head? = cs.head? → ∀ p, scan escaped p cs' = ⟨[], false, stop, ⟨cs', p⟩⟩) :
    ScansLocally escaped cs :=
  ⟨[], cs, [], false, stop, rfl, by simp, hquote, h⟩

/-- One more character in front, which the scan goes over: it adds `lead` to the content, and
`control` says whether it is left out as a control character. -/
theorem scansLocally_cons {escaped next : Bool} {c : Char} {cs : List Char} (hc : c ≠ '\n')
    (lead : List Char) (control : Bool)
    (h : ∀ p cs, scan escaped p (c :: cs) =
      { scan next (p.step c) cs with
        content := lead ++ (scan next (p.step c) cs).content
        hasControl := control || (scan next (p.step c) cs).hasControl })
    (hcs : ScansLocally next cs) : ScansLocally escaped (c :: cs) := by
  obtain ⟨word, rest, content, control', stop, rfl, hword, hquote, hscan⟩ := hcs
  refine ⟨c :: word, rest, lead ++ content, control || control', stop, rfl,
    by simp [hword, hc.symm], hquote, ?_⟩
  intro rest' hrest p
  rw [List.cons_append, h, hscan rest' hrest]
  rfl

theorem scansLocally (escaped : Bool) (cs : List Char) : ScansLocally escaped cs := by
  induction cs generalizing escaped with
  | nil =>
    apply scansLocally_of_stop .endOfText (by simp)
    intro cs' h p
    obtain rfl : cs' = [] := List.head?_eq_none_iff.1 h
    rfl
  | cons c cs ih =>
    by_cases hn : c = '\n'
    · apply scansLocally_of_stop .newline (by simp)
      intro cs' h p
      obtain ⟨ds, rfl⟩ := List.head?_eq_some_iff.1 h
      simp [scan, hn]
    cases escaped with
    | true =>
      by_cases hq : c = '"'
      · refine scansLocally_cons hn ['"'] false (fun p cs => ?_) (ih false)
        simp [scan, hq, Scan.push]
      by_cases hk : CharClass.isControl c = true
      · refine scansLocally_cons hn ['\\'] true (fun p cs => ?_) (ih false)
        simp [scan, hn, hq, hk, Scan.push, Scan.markControl]
      · refine scansLocally_cons hn ['\\', c] false (fun p cs => ?_) (ih false)
        simp [scan, hn, hq, hk, Scan.push]
    | false =>
      by_cases hb : c = '\\'
      · refine scansLocally_cons hn [] false (fun p cs => ?_) (ih true)
        simp [scan, hb]
      by_cases hq : c = '"'
      · apply scansLocally_of_stop .quote (by simp [hq])
        intro cs' h p
        obtain ⟨ds, rfl⟩ := List.head?_eq_some_iff.1 h
        simp [scan, hq]
      by_cases hk : CharClass.isControl c = true
      · refine scansLocally_cons hn [] true (fun p cs => ?_) (ih false)
        simp [scan, hn, hb, hq, hk, Scan.markControl]
      · refine scansLocally_cons hn [c] false (fun p cs => ?_) (ih false)
        simp [scan, hn, hb, hq, hk, Scan.push]

/-- The warning of a literal in which a control character was left out. -/
def controlRemarks (control : Bool) : List Remark :=
  if control then [⟨[], .literal .controlCharacter, .warning⟩] else []

theorem placed_controlRemarks {pos : Position} {s : Scan} :
    (controlRemarks s.hasControl).map (·.placed pos) = warnings pos s := by
  unfold controlRemarks warnings
  split_ifs <;> rfl

theorem onLine_controlRemarks (control : Bool) : Remark.OnLine (controlRemarks control) := by
  cases control <;> simp [controlRemarks]

theorem localOn_read : LocalOn (some '"') read anything := by
  intro text hx
  obtain ⟨cs, rfl⟩ := List.head?_eq_some_iff.1 hx
  obtain ⟨word, rest, content, control, stop, rfl, hword, hquote, hscan⟩ := scansLocally false cs
  have hline : '\n' ∉ '"' :: word := by simp [hword]
  cases stop with
  | quote =>
    obtain ⟨rest, rfl⟩ := List.head?_eq_some_iff.1 (hquote rfl)
    refine ⟨'"' :: (word ++ ['"']), rest, .success (String.ofList content) (controlRemarks control),
      by simp, ⟨by simp [hword], onLine_controlRemarks control, ?_⟩, trivial⟩
    intro rest' _ pos
    have hs := hscan ('"' :: rest') rfl (pos.step '"')
    simp [read, hs, Finding.outcome, ← placed_controlRemarks]
  | newline =>
    refine ⟨'"' :: word, rest, _, rfl, .of_error (.literal .newline) hline
      (onLine_controlRemarks control) ?_, trivial⟩
    intro rest' h pos
    simp [read, hscan rest' h (pos.step '"'), ← placed_controlRemarks]
  | endOfText =>
    refine ⟨'"' :: word, rest, _, rfl, .of_error (.literal .endOfText) hline
      (onLine_controlRemarks control) ?_, trivial⟩
    intro rest' h pos
    simp [read, hscan rest' h (pos.step '"'), ← placed_controlRemarks]

end Literal

namespace Numeral

def ScansLocally (phase : Phase) (cs : List Char) : Prop :=
  ∃ word rest written reached fault, cs = word ++ rest ∧ '\n' ∉ word ∧
    ∀ rest', rest'.head? = rest.head? → ∀ p, scan phase p (word ++ rest') =
      ⟨written, reached, fault, ⟨rest', p.advance word⟩⟩

theorem scansLocally_of_stop {phase : Phase} (fault : Option Char) {cs : List Char}
    (h : ∀ cs', cs'.head? = cs.head? → ∀ p, scan phase p cs' = ⟨[], phase, fault, ⟨cs', p⟩⟩) :
    ScansLocally phase cs :=
  ⟨[], cs, [], phase, fault, rfl, by simp, h⟩

/-- One more character in front, which the scan goes over: it adds `lead` to what is written. -/
theorem scansLocally_cons {phase next : Phase} {c : Char} {cs : List Char} (hc : c ≠ '\n')
    (lead : List Char)
    (h : ∀ p cs, scan phase p (c :: cs) = (scan next (p.step c) cs).push lead)
    (hcs : ScansLocally next cs) : ScansLocally phase (c :: cs) := by
  obtain ⟨word, rest, written, reached, fault, rfl, hword, hscan⟩ := hcs
  refine ⟨c :: word, rest, lead ++ written, reached, fault, rfl, by simp [hword, hc.symm], ?_⟩
  intro rest' hrest p
  rw [List.cons_append, h, hscan rest' hrest]
  rfl

theorem scansLocally (phase : Phase) (cs : List Char) : ScansLocally phase cs := by
  induction cs generalizing phase with
  | nil =>
    apply scansLocally_of_stop none
    intro cs' h p
    obtain rfl : cs' = [] := List.head?_eq_none_iff.1 h
    rfl
  | cons c cs ih =>
    by_cases hstop : isStop c = true
    · apply scansLocally_of_stop none
      intro cs' h p
      obtain ⟨ds, rfl⟩ := List.head?_eq_some_iff.1 h
      simp [scan, hstop]
    have hc : c ≠ '\n' := by
      rintro rfl
      exact hstop (by decide)
    by_cases hd : CharClass.isDigit c = true
    · refine scansLocally_cons hc [c] (fun p cs => ?_)
        (ih (if phase = .sign then .whole else phase))
      simp [scan, hstop, hd]
    by_cases hs : c = '.' ∧ phase = .sign
    · refine scansLocally_cons hc ['0', '.'] (fun p cs => ?_) (ih .fraction)
      rw [scan, if_neg hstop, if_neg hd, if_pos hs]
    by_cases hw : c = '.' ∧ phase = .whole
    · refine scansLocally_cons hc ['.'] (fun p cs => ?_) (ih .fraction)
      rw [scan, if_neg hstop, if_neg hd, if_neg hs, if_pos hw]
    · apply scansLocally_of_stop (some c)
      intro cs' h p
      obtain ⟨ds, rfl⟩ := List.head?_eq_some_iff.1 h
      rw [scan, if_neg hstop, if_neg hd, if_neg hs, if_neg hw]

theorem localOn_read (start : Start) {c : Char} (hc : c ≠ '\n') :
    LocalOn (some c) (read start) anything := by
  intro text hx
  obtain ⟨cs, rfl⟩ := List.head?_eq_some_iff.1 hx
  obtain ⟨word, rest, written, reached, fault, rfl, hword, hscan⟩ := scansLocally start.phase cs
  have hline : '\n' ∉ c :: word := by simp [hword, hc.symm]
  cases fault with
  | some x =>
    refine ⟨c :: word, rest, _, rfl, .of_error (.numeral (.unexpected x)) hline .nil ?_, trivial⟩
    intro rest' h pos
    simp [read, hscan rest' h]
  | none =>
    rcases hvalue : value (start.written ++ written) reached with problem | n
    · refine ⟨c :: word, rest, _, rfl, .of_error (.numeral problem) hline .nil ?_, trivial⟩
      intro rest' h pos
      simp [read, hscan rest' h, hvalue]
    · refine ⟨c :: word, rest, .success n [], rfl, ⟨hline, by simp [Finding.remarks], ?_⟩, trivial⟩
      intro rest' h pos
      simp [read, hscan rest' h, hvalue, Finding.outcome]

end Numeral

namespace Value

theorem localOn_readBoolean (truth : Bool) {x : Option Char} (hx : x ≠ some '\n') :
    LocalOn x (readBoolean truth) anything := by
  refine .bind (.spell _ _ ?_ hx) ?_
  · cases truth <;> simp
  intro _ y hy
  refine .bind (.advance hy) ?_
  rintro z _ rfl
  cases z with
  | none => exact .pure trivial
  | some c =>
    dsimp only
    split_ifs
    · exact .pure trivial
    · exact .error _

theorem localOn_envError {α : Type} (y x : Option Char) :
    LocalOn x (envError y : Parser α) anything := by
  cases y <;> exact .error _

theorem localOn_readEnv {x : Option Char} (hx : x ≠ some '\n') : LocalOn x readEnv anything := by
  refine .bind (.spell _ _ (by simp) hx) ?_
  intro _ y hy
  refine .bind (.advance hy) ?_
  intro _ y _
  refine .bind .skipSpaces ?_
  rintro opening _ rfl
  split_ifs with hopening
  · rw [hopening]
    refine .bind (Literal.localOn_read.mapProblem Problem.insideEnv) ?_
    intro name y _
    refine .bind .skipSpaces ?_
    rintro closing _ rfl
    split_ifs with hclosing
    · refine .bind (.advance (by simp [hclosing])) ?_
      rintro z _ rfl
      cases z with
      | none => exact .pure trivial
      | some c =>
        dsimp only
        split_ifs
        · exact .pure trivial
        · exact localOn_envError _ _
    · exact localOn_envError _ _
  · exact localOn_envError _ _

theorem localOn_readNumeral (start : Numeral.Start) {c : Char} (hc : c ≠ '\n') :
    LocalOn (some c) (readNumeral start) anything := by
  intro text hx
  obtain ⟨word, rest, found, rfl, hfinds, -⟩ := Numeral.localOn_read start hc text hx
  have hread : ∀ rest', rest'.head? = rest.head? → ∀ pos,
      readNumeral start ⟨word ++ rest', pos⟩ =
        (((found.outcome pos).map ofNumber).withLeading
          (numeralWarnings start pos (found.outcome pos)), ⟨rest', pos.advance word⟩) := by
    intro rest' h pos
    simp [readNumeral, hfinds.gives rest' h pos]
  cases found with
  | failure rs =>
    refine ⟨word, rest, .failure rs, rfl, ⟨hfinds.word_line, hfinds.remarks_line, ?_⟩, trivial⟩
    intro rest' h pos
    rw [hread rest' h pos]
    rfl
  | success n rs =>
    cases n with
    | double d =>
      refine ⟨word, rest, .success (.number d) rs, rfl,
        ⟨hfinds.word_line, hfinds.remarks_line, ?_⟩, trivial⟩
      intro rest' h pos
      rw [hread rest' h pos]
      rfl
    | integer n =>
      obtain ⟨lead, hlead⟩ : ∃ lead : List Remark, lead =
          if start = .point then [⟨[], .numeral .integerForDouble, .warning⟩] else [] := ⟨_, rfl⟩
      have honLine : Remark.OnLine lead := by
        rw [hlead]
        split_ifs <;> simp
      refine ⟨word, rest, .success (.integer n) (lead ++ rs), rfl,
        ⟨hfinds.word_line, (Remark.OnLine.append_iff _ _).2 ⟨honLine, hfinds.remarks_line⟩, ?_⟩,
        trivial⟩
      intro rest' h pos
      rw [hread rest' h pos, hlead]
      by_cases hs : start = .point <;>
        simp [hs, Finding.outcome, Outcome.map, ofNumber, numeralWarnings, Remark.placed]

theorem start_ne_newline {c : Char} {start : Numeral.Start}
    (h : Numeral.Start.ofChar? c = some start) : c ≠ '\n' := by
  rintro rfl
  have hnone : Numeral.Start.ofChar? '\n' = none := by decide
  simp [hnone] at h

theorem localOn_read {x : Option Char} : LocalOn x read anything := by
  refine .bind .current ?_
  rintro y _ rfl
  cases y with
  | none => exact .error _
  | some c =>
    dsimp only
    split
    · next start hstart => exact localOn_readNumeral start (start_ne_newline hstart)
    · split_ifs with hq ht hf he
      · rw [hq]
        exact Literal.localOn_read.map _
      · exact (localOn_readBoolean true (by rcases ht with rfl | rfl <;> decide)).map _
      · exact (localOn_readBoolean false (by rcases hf with rfl | rfl <;> decide)).map _
      · exact (localOn_readEnv (by simp [he])).map _
      · exact .error _

end Value

theorem Comment.endsOn_read {x : Option Char} (hx : x ≠ some '\n') : EndsOn x read := by
  refine .bind (.advance hx) ?_
  rintro y _ rfl
  cases y with
  | none => exact .pure_end none
  | some c =>
    dsimp only
    split_ifs with hc
    · refine .bind (.advance (by simp [hc])) ?_
      rintro z _ rfl
      cases z with
      | none => exact .pure_end none
      | some d =>
        dsimp only
        split_ifs with hd
        · exact .bind (.advance (by simp [hd])) fun _ _ _ => .skipLine _
        · exact .skipLine _
    · exact .error _

theorem Closing.endsOn_read {x : Option Char} (hx : x ≠ some '\n') : EndsOn x read := by
  refine .bind (.advance hx) ?_
  rintro y _ rfl
  cases y with
  | none => exact .pure_end ()
  | some c =>
    dsimp only
    split_ifs with hn hs
    · rw [hn]
      exact .newline ()
    · refine .bind .skipSpaces ?_
      rintro z _ rfl
      cases z with
      | none => exact .pure_end ()
      | some d =>
        dsimp only
        split_ifs with hd
        · rw [hd]
          exact .newline ()
        · exact .bind (.warning _) fun _ _ _ => .skipLine _
    · exact .error _

theorem Key.localOn_finish (key : String) {c : Char} (hc : c ≠ '\n') :
    LocalOn (some c) (finish key) anything :=
  .bind (.advance (by simpa using hc)) fun _ _ _ => .pure trivial

theorem Key.localOn_read (first : Char) {x : Option Char} (hx : x ≠ some '\n') :
    LocalOn x (read first) anything := by
  refine .bind (.advance hx) ?_
  intro _ y _
  refine .bind (.takeWhile (by decide)) ?_
  intro word y _
  refine .bind .current ?_
  rintro y _ rfl
  cases y with
  | none => exact .error _
  | some c =>
    dsimp only
    split_ifs with he
    · exact localOn_finish _ (by simp [he])
    · refine .bind .skipSpaces ?_
      rintro z _ rfl
      cases z with
      | none => exact .error _
      | some d =>
        dsimp only
        split_ifs with hd
        · exact localOn_finish _ (by simp [hd])
        · exact .error _
    · exact .error _
    · exact .error _

theorem Entry.endsOn_readEnd (key : String) (value : Value) {x : Option Char} :
    EndsOn x (readEnd key value) := by
  refine .bind .skipSpaces ?_
  rintro y _ rfl
  cases y with
  | none => exact .error _
  | some c =>
    dsimp only
    split_ifs with hn hb hs
    · rw [hn]
      exact .newline _
    · exact (Closing.endsOn_read (by simp [hb])).map _
    · exact (Comment.endsOn_read (by simp [hs])).map _
    · exact .error _

theorem Entry.endsOn_read (first : Char) {x : Option Char} (hx : x ≠ some '\n') :
    EndsOn x (read first) := by
  refine .bind (Key.localOn_read first hx) ?_
  intro key y _
  refine .bind .skipSpaces ?_
  intro _ y _
  refine .bind Value.localOn_read ?_
  intro value y _
  exact endsOn_readEnd key value

theorem Line.endsOn_readFrom (first : Char) : EndsOn (some first) (readFrom first) := by
  unfold readFrom
  split_ifs with hs hn
  · exact (Comment.endsOn_read (by simp [hs])).map _
  · rw [hn]
    exact .newline _
  · exact (Closing.endsOn_read (by simpa using hn)).map _
  · exact (Entry.endsOn_read first (by simpa using hn)).map _
  · exact .error _

/-- However a line is read, it turns out in one of the three ways. -/
theorem Line.turns_read (text : List Char) : Turns read text := by
  have hends : EndsOn text.head? read := by
    refine .bind .skipSpaces ?_
    rintro y _ rfl
    cases y with
    | none => exact .error _
    | some c => exact endsOn_readFrom c
  exact hends text rfl

end ConfigBlock
