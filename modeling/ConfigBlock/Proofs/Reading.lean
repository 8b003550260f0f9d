import ConfigBlock.Parser

/-!
# Reading a known text

Evaluation rules for parsers. A step that cannot fail passes its result straight on, so a
chain of such steps is computed from the front. `Reads` states the result of a parser on a
text that starts with a known word, whatever the position: these statements compose along
`bind`, with the reports of the second parser moved to where the first one stopped.
-/

namespace ConfigBlock

def spaces (n : Nat) : List Char := List.replicate n ' '

namespace Cursor

theorem rest_eq_nil {c : Cursor} (h : c.current = none) : c.rest = [] :=
  List.head?_eq_none_iff.1 h

theorem rest_eq_cons {c : Cursor} {x : Char} (h : c.current = some x) :
    c.rest = x :: c.advance.rest := by
  obtain ⟨_ | ⟨y, ys⟩, p⟩ := c
  · simp at h
  · simpa using h

theorem tail_rest (c : Cursor) : c.rest.tail = c.advance.rest := by
  obtain ⟨_ | ⟨x, xs⟩, p⟩ := c <;> rfl

/-- Stepping over exactly `word` leads from one cursor to the other. -/
structure Passes (c : Cursor) (word : List Char) (c' : Cursor) : Prop where
  rest : c.rest = word ++ c'.rest
  position : c'.position = c.position.advance word

theorem Passes.eq_mk {c c' : Cursor} {word : List Char} (h : c.Passes word c') :
    c = ⟨word ++ c'.rest, c.position⟩ ∧ c' = ⟨c'.rest, c.position.advance word⟩ := by
  rw [← h.rest, ← h.position]
  exact ⟨rfl, rfl⟩

theorem Passes.reaches {c c' : Cursor} {word : List Char} (h : c.Passes word c') : c.Reaches c' :=
  ⟨word, h.rest, h.position⟩

theorem Passes.unique {c c' c'' : Cursor} {word : List Char} (h : c.Passes word c')
    (h' : c.Passes word c'') : c' = c'' := by
  have hrest : c'.rest = c''.rest := List.append_cancel_left (h.rest.symm.trans h'.rest)
  rw [h.eq_mk.2, h'.eq_mk.2, hrest]

theorem Passes.append_iff {c c' c'' : Cursor} {word : List Char} (h : c.Passes word c')
    (word' : List Char) : c.Passes (word ++ word') c'' ↔ c'.Passes word' c'' := by
  constructor
  · intro h'
    have hrest := h'.rest
    rw [h.rest, List.append_assoc] at hrest
    exact ⟨List.append_cancel_left hrest, by rw [h'.position, h.position, Position.advance_append]⟩
  · intro h'
    exact ⟨by rw [h.rest, h'.rest, List.append_assoc],
      by rw [h'.position, h.position, Position.advance_append]⟩

theorem passes_advance {c : Cursor} {x : Char} (h : c.current = some x) :
    c.Passes [x] c.advance := by
  obtain ⟨_ | ⟨y, ys⟩, p⟩ := c
  · simp at h
  · obtain rfl : y = x := by simpa using h
    exact ⟨rfl, rfl⟩

variable {test : Char → Bool}

theorem run_append {word : List Char} (hw : ∀ c ∈ word, test c = true) (rest : List Char)
    (hr : ∀ c ∈ rest.head?, test c = false) (p : Position) :
    (mk (word ++ rest) p).run test = word := by
  have hn : rest.takeWhile test = [] := by
    cases rest with
    | nil => rfl
    | cons c cs => simp [hr c (by simp)]
  simp [run, List.takeWhile_append_of_pos hw, hn]

theorem skipWhile_append_of_all {word : List Char} (hw : ∀ c ∈ word, test c = true)
    (rest : List Char) (p : Position) :
    (mk (word ++ rest) p).skipWhile test = (mk rest (p.advance word)).skipWhile test := by
  simp [skipWhile, run, List.takeWhile_append_of_pos hw, List.dropWhile_append_of_pos hw]

theorem skipWhile_append {word : List Char} (hw : ∀ c ∈ word, test c = true) (rest : List Char)
    (hr : ∀ c ∈ rest.head?, test c = false) (p : Position) :
    (mk (word ++ rest) p).skipWhile test = ⟨rest, p.advance word⟩ := by
  have hn : rest.dropWhile test = rest := by
    cases rest with
    | nil => rfl
    | cons c cs => simp [hr c (by simp)]
  simp [skipWhile, run_append hw rest hr, List.dropWhile_append_of_pos hw, hn]

theorem rest_eq_run_append (c : Cursor) (test : Char → Bool) :
    c.rest = c.run test ++ (c.skipWhile test).rest :=
  (List.takeWhile_append_dropWhile (p := test)).symm

theorem of_mem_run {c : Cursor} {x : Char} (h : x ∈ c.run test) : test x = true :=
  List.all_eq_true.1 List.all_takeWhile x h

theorem of_mem_current_skipWhile {c : Cursor} {x : Char} (h : x ∈ (c.skipWhile test).current) :
    test x = false := by
  have hd := List.head?_dropWhile_not test c.rest
  have hx : (c.rest.dropWhile test).head? = some x := h
  simpa [hx] using hd

theorem skipSpaces_append (n : Nat) (rest : List Char) (h : rest.head? ≠ some ' ')
    (p : Position) : (mk (spaces n ++ rest) p).skipSpaces = ⟨rest, p.advance (spaces n)⟩ := by
  refine skipWhile_append (fun c hc => ?_) rest (fun c hc => ?_) p
  · simp [List.eq_of_mem_replicate hc]
  · rcases hs : CharClass.isSpace c with _ | _
    · rfl
    · exact absurd (((CharClass.isSpace_iff c).1 hs) ▸ hc) h

/-- What a cursor skips as blanks is a run of spaces, and no space follows it. -/
theorem exists_spaces (c : Cursor) :
    ∃ n, c.rest = spaces n ++ c.skipSpaces.rest ∧ c.skipSpaces.current ≠ some ' ' := by
  refine ⟨(c.run CharClass.isSpace).length, ?_, ?_⟩
  · have hr : c.run CharClass.isSpace = spaces (c.run CharClass.isSpace).length := by
      refine List.eq_replicate_of_mem fun x hx => ?_
      exact (CharClass.isSpace_iff x).1 (of_mem_run hx)
    rw [← hr]
    exact c.rest_eq_run_append CharClass.isSpace
  · intro h
    have hs : CharClass.isSpace ' ' = false := of_mem_current_skipWhile h
    exact absurd hs (by decide)

theorem exists_spaces_succ {c : Cursor} (h : c.current = some ' ') :
    ∃ n, c.rest = spaces (n + 1) ++ c.skipSpaces.rest ∧ c.skipSpaces.current ≠ some ' ' := by
  obtain ⟨n, hrest, hcur⟩ := c.exists_spaces
  cases n with
  | zero =>
    have hsame : c.rest = c.skipSpaces.rest := hrest
    exact absurd (hsame ▸ h : c.skipSpaces.rest.head? = some ' ') hcur
  | succ n => exact ⟨n, hrest, hcur⟩

theorem skipSpaces_eq_iff {c c' : Cursor} (h : c'.current ≠ some ' ') :
    c.skipSpaces = c' ↔ ∃ blanks, c.Passes (spaces blanks) c' := by
  constructor
  · rintro rfl
    obtain ⟨blanks, hrest, -⟩ := c.exists_spaces
    refine ⟨blanks, hrest, ?_⟩
    have hskip := skipSpaces_append blanks c.skipSpaces.rest h c.position
    rw [← hrest] at hskip
    exact congrArg position hskip
  · rintro ⟨blanks, hpasses⟩
    obtain ⟨hc, hc'⟩ := hpasses.eq_mk
    rw [hc, hc']
    exact skipSpaces_append blanks c'.rest h c.position

theorem isNewline_eq_false {word : List Char} (hw : '\n' ∉ word) :
    ∀ c ∈ word, (!CharClass.isNewline c) = true := by
  intro c hc
  have hne : c ≠ '\n' := fun h => hw (h ▸ hc)
  simp [CharClass.isNewline, hne]

theorem lineText_append {word : List Char} (hw : '\n' ∉ word) (rest : List Char) (p : Position) :
    (mk (word ++ '\n' :: rest) p).lineText = word :=
  run_append (isNewline_eq_false hw) _ (by simp [CharClass.isNewline]) p

theorem lineText_of_notMem {word : List Char} (hw : '\n' ∉ word) (p : Position) :
    (mk word p).lineText = word := by
  have hrun := run_append (isNewline_eq_false hw) [] (by simp) p
  rwa [List.append_nil] at hrun

theorem skipLine_append {word : List Char} (hw : '\n' ∉ word) (rest : List Char) (p : Position) :
    (mk (word ++ '\n' :: rest) p).skipLine = ⟨rest, p.advance (word ++ ['\n'])⟩ := by
  have hs := skipWhile_append (isNewline_eq_false hw) ('\n' :: rest)
    (by simp [CharClass.isNewline]) p
  simp [skipLine, hs]

theorem skipLine_of_notMem {word : List Char} (hw : '\n' ∉ word) (p : Position) :
    (mk word p).skipLine = ⟨[], p.advance word⟩ := by
  have hs := skipWhile_append (isNewline_eq_false hw) [] (by simp) p
  rw [List.append_nil] at hs
  simp [skipLine, hs]

/-- A line that is skipped ends in a newline, or else it is the last one. -/
theorem exists_line (c : Cursor) :
    (∃ word, '\n' ∉ word ∧ c.rest = word ++ '\n' :: c.skipLine.rest) ∨
      ('\n' ∉ c.rest ∧ c.skipLine.rest = []) := by
  have hrest := c.rest_eq_run_append (!CharClass.isNewline ·)
  have hword : '\n' ∉ c.run (!CharClass.isNewline ·) := by
    intro h
    simpa [CharClass.isNewline] using of_mem_run h
  rcases hs : c.skipWhile (!CharClass.isNewline ·) with ⟨_ | ⟨x, xs⟩, p⟩
  · right
    rw [hs, List.append_nil] at hrest
    exact ⟨hrest ▸ hword, by simp [skipLine, hs]⟩
  · left
    have hx : x ∈ (c.skipWhile (!CharClass.isNewline ·)).current := by simp [hs]
    obtain rfl : x = '\n' := by simpa using of_mem_current_skipWhile hx
    refine ⟨_, hword, ?_⟩
    simpa [skipLine, hs] using hrest

end Cursor

namespace Parser

variable {α β γ : Type}

@[simp] theorem current_bind (f : Option Char → Parser α) (c : Cursor) :
    (current >>= f) c = f c.current c := by
  simp [bind_apply, current]

@[simp] theorem advance_bind (f : Option Char → Parser α) (c : Cursor) :
    (advance >>= f) c = f c.advance.current c.advance := by
  simp [bind_apply, advance]

@[simp] theorem skipSpaces_bind (f : Option Char → Parser α) (c : Cursor) :
    (skipSpaces >>= f) c = f c.skipSpaces.current c.skipSpaces := by
  simp [bind_apply, skipSpaces]

@[simp] theorem takeWhile_bind (test : Char → Bool) (f : List Char → Parser α) (c : Cursor) :
    (takeWhile test >>= f) c = f (c.run test) (c.skipWhile test) := by
  simp [bind_apply, takeWhile]

@[simp] theorem skipLine_bind (f : List Char → Parser α) (c : Cursor) :
    (skipLine >>= f) c = f c.lineText c.skipLine := by
  simp [bind_apply, skipLine]

attribute [simp] pure_apply

@[simp] theorem skipLine_eq (c : Cursor) :
    skipLine c = (.success c.lineText [], c.skipLine) := rfl

@[simp] theorem advance_eq (c : Cursor) :
    advance c = (.success c.advance.current [], c.advance) := rfl

@[simp] theorem map_eq (g : α → β) (p : Parser α) (c : Cursor) :
    (g <$> p) c = ((p c).1.map g, (p c).2) := by
  rw [← bind_pure_comp, bind_apply]
  rcases p c with ⟨_ | _, c'⟩ <;> simp [Outcome.map]

@[simp] theorem error_eq (problem : Problem) (c : Cursor) :
    (error problem : Parser α) c = (.failure [c.error problem], c) := rfl

@[simp] theorem warning_bind (problem : Problem) (f : Unit → Parser α) (c : Cursor) :
    (warning problem >>= f) c = ((f () c).1.withLeading [c.warning problem], (f () c).2) := rfl

theorem bind_eq_success {p : Parser α} {f : α → Parser β} {c c'' : Cursor} {b : β}
    {ds : List Diagnostic} :
    (p >>= f) c = (.success b ds, c'') ↔
      ∃ a c' ds₁ ds₂, p c = (.success a ds₁, c') ∧ f a c' = (.success b ds₂, c'') ∧
        ds = ds₁ ++ ds₂ := by
  rcases hp : p c with ⟨⟨a, ds₁⟩ | ds₁, c'⟩
  · rw [bind_of_success hp, Prod.mk.injEq, Outcome.withLeading_eq_success]
    constructor
    · rintro ⟨⟨ds₂, hf, rfl⟩, rfl⟩
      exact ⟨a, c', ds₁, ds₂, rfl, Prod.ext hf rfl, rfl⟩
    · rintro ⟨a, c', ds₁, ds₂, ⟨⟩, hf, rfl⟩
      exact ⟨⟨ds₂, by rw [hf], rfl⟩, by rw [hf]⟩
  · rw [bind_of_failure hp]
    simp

theorem bind_pure_eq_success {p : Parser α} {g : α → β} {c c' : Cursor} {b : β}
    {ds : List Diagnostic} :
    (p >>= fun a => Pure.pure (g a)) c = (.success b ds, c') ↔
      ∃ a, p c = (.success a ds, c') ∧ b = g a := by
  rw [bind_eq_success]
  constructor
  · rintro ⟨a, c₁, ds₁, ds₂, hp, hg, rfl⟩
    obtain ⟨⟨rfl, rfl⟩, rfl⟩ : (g a = b ∧ [] = ds₂) ∧ c₁ = c' := by simpa using hg
    exact ⟨a, by simpa using hp, rfl⟩
  · rintro ⟨a, hp, rfl⟩
    exact ⟨a, c', ds, [], hp, rfl, by simp⟩

theorem exists_of_mapDiagnostics {p : Parser α} {f : Diagnostic → Diagnostic} {c c' : Cursor}
    {a : α} {ds : List Diagnostic} (h : mapDiagnostics f p c = (.success a ds, c')) :
    ∃ es, p c = (.success a es, c') := by
  rcases hp : p c with ⟨⟨b, es⟩ | es, c₁⟩
  · obtain ⟨⟨rfl, -⟩, rfl⟩ : (b = a ∧ _) ∧ c₁ = c' := by
      simpa [mapDiagnostics, hp, Outcome.mapDiagnostics] using h
    exact ⟨es, rfl⟩
  · simp [mapDiagnostics, hp, Outcome.mapDiagnostics] at h

/-- In front of `word` and then `rest`, the parser steps over exactly `word` and gives `a`.
What it reports may depend on where it started. -/
def Reads (p : Parser α) (word rest : List Char) (a : α)
    (report : Position → List Diagnostic) : Prop :=
  ∀ pos, p ⟨word ++ rest, pos⟩ = (.success a (report pos), ⟨rest, pos.advance word⟩)

/-- A reading that has nothing to report. -/
def silent : Position → List Diagnostic := fun _ => []

namespace Reads

theorem bind {p : Parser α} {f : α → Parser β} {w w' rest : List Char} {a : α} {b : β}
    {r r' : Position → List Diagnostic} (hp : Reads p w (w' ++ rest) a r)
    (hf : Reads (f a) w' rest b r') :
    Reads (p >>= f) (w ++ w') rest b fun pos => r pos ++ r' (pos.advance w) := by
  intro pos
  have h := hp pos
  rw [← List.append_assoc] at h
  rw [bind_of_success h, hf (pos.advance w)]
  simp

theorem map {p : Parser α} {w rest : List Char} {a : α} {r : Position → List Diagnostic}
    (hp : Reads p w rest a r) (f : α → β) :
    Reads (p >>= fun x => Pure.pure (f x)) w rest (f a) r := by
  intro pos
  rw [bind_of_success (hp pos)]
  simp

theorem mapDiagnostics {p : Parser α} {w rest : List Char} {a : α}
    {r : Position → List Diagnostic} (hp : Reads p w rest a r) (f : Diagnostic → Diagnostic) :
    Reads (mapDiagnostics f p) w rest a fun pos => (r pos).map f := by
  intro pos
  simp [Parser.mapDiagnostics, hp pos, Outcome.mapDiagnostics]

theorem eq_of_success {p : Parser α} {w : List Char} {a b : α} {r : Position → List Diagnostic}
    {c c' : Cursor} {ds : List Diagnostic} (hp : Reads p w c'.rest a r)
    (hw : c.rest = w ++ c'.rest) (h : p c = (.success b ds, c')) :
    b = a ∧ ds = r c.position ∧ c'.position = c.position.advance w := by
  have he := hp c.position
  rw [← hw, h] at he
  simp only [Prod.mk.injEq, Outcome.success.injEq] at he
  obtain ⟨⟨hb, hd⟩, hc⟩ := he
  exact ⟨hb, hd, by rw [hc]⟩

end Reads
end Parser
end ConfigBlock
