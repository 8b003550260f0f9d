import ConfigBlock.Proofs.Grammar

/-!
# Where documentation comments go

A documentation comment stands on a line of its own or behind the value of an entry. Reading a
block moves the first kind to the next entry, or to the block if no entry follows, and leaves the
second kind where it is. Nothing is lost on the way, nothing is doubled and nothing changes its
order: the comments of the entries and those left over, one after the other, are the comments of
the text.
-/

namespace ConfigBlock

open ConfigBlock.Parser

namespace Line.Form

def isEntry : Form → Bool
  | .entry .. => true
  | _ => false

theorem exists_entry {f : Form} (h : f.isEntry = true) : ∃ indent g, f = .entry indent g := by
  cases f with
  | entry indent g => exact ⟨indent, g, rfl⟩
  | _ => simp [isEntry] at h

/-- The documentation comment that stands on a line of its own. -/
def ownDocs : Form → List String
  | .comment _ f => f.doc?.toList
  | _ => []

/-- The documentation comment behind the value of an entry. -/
def trailingDocs : Form → List String
  | .entry _ f => f.ending.docs
  | _ => []

def docs (f : Form) : List String := f.ownDocs ++ f.trailingDocs

theorem docs_of_closes {f : Form} (h : f.closes = true) : f.docs = [] := by
  cases f with
  | blank indent => simp [docs, ownDocs, trailingDocs]
  | comment indent f => simp [closes] at h
  | brace indent f => simp [docs, ownDocs, trailingDocs]
  | entry indent f =>
    cases he : f.ending with
    | newline => simp [closes, he, LineEnd.Form.lineEnd, LineEnd.closes] at h
    | comment g => simp [closes, he, LineEnd.Form.lineEnd, LineEnd.closes] at h
    | closing g => simp [docs, ownDocs, trailingDocs, he, LineEnd.Form.docs]

/-- Either there are no lines, or the last of them is an entry. -/
def EndInEntry (fs : List Form) : Prop := ∀ f ∈ fs.getLast?, f.isEntry = true

end Line.Form

namespace Body

/-- The text starts with the lines `xs`, which leave the block open, and the line `z`, which
closes it. -/
structure Layout (text : List Char) (xs : List Line.Form) (z : Line.Form) (rest : List Char) :
    Prop where
  text_eq : text = xs.flatMap Line.Form.text ++ (z.text ++ rest)
  opens : ∀ x ∈ xs, x.closes = false
  closes : z.closes = true
  fits : z.Fits rest

theorem lines_read_of_layout {c : Cursor} {xs : List Line.Form} {z : Line.Form} {rest : List Char}
    (h : Layout c.rest xs z rest) : (read c).lines = (xs ++ [z]).map Line.Form.line := by
  have hforms := read_forms h.opens h.closes h.fits c.position
  rw [← h.text_eq] at hforms
  exact congrArg Body.lines hforms

end Body

namespace Block

open Line.Form (isEntry ownDocs docs EndInEntry)

/-- What waits at the end of the first lines is what the next ones start with. -/
theorem attach_append (pending : List String) (ls ms : List Line) :
    attach pending (ls ++ ms) =
      ((attach pending ls).1 ++ (attach (attach pending ls).2 ms).1,
        (attach (attach pending ls).2 ms).2) := by
  induction ls generalizing pending with
  | nil => rfl
  | cons l ls ih =>
    obtain ⟨text | _ | e, ending⟩ := l
    · exact ih (pending ++ [text])
    · exact ih pending
    · have hrest := ih []
      simp [attach, hrest]

theorem attach_entry (pending : List String) (indent : Nat) (f : Entry.Form) (ls : List Line) :
    attach pending ((Line.Form.entry indent f).line :: ls) =
      (⟨f.key, f.value.value, pending ++ f.ending.docs⟩ :: (attach [] ls).1, (attach [] ls).2) :=
  rfl

theorem attach_of_not_entry {f : Line.Form} (h : f.isEntry = false) (pending : List String)
    (ls : List Line) : attach pending (f.line :: ls) = attach (pending ++ f.ownDocs) ls := by
  cases f with
  | blank indent => simp [Line.Form.line, attach, ownDocs]
  | brace indent f => simp [Line.Form.line, attach, ownDocs]
  | entry indent f => simp [isEntry] at h
  | comment indent f =>
    cases f with
    | remark body hbody => simp [Line.Form.line, Comment.Form.doc?, Line.ofComment, attach, ownDocs]
    | doc body hbody => simp [Line.Form.line, Comment.Form.doc?, Line.ofComment, attach, ownDocs]

/-- Comments wait across any lines that hold no entry. -/
theorem attach_between {fs : List Line.Form} (h : ∀ f ∈ fs, f.isEntry = false)
    (pending : List String) (ls : List Line) :
    attach pending (fs.map Line.Form.line ++ ls) = attach (pending ++ fs.flatMap ownDocs) ls := by
  induction fs generalizing pending with
  | nil => simp
  | cons f fs ih =>
    have hrest := ih (fun g hg => h g (by simp [hg])) (pending ++ f.ownDocs)
    rw [List.map_cons, List.cons_append, attach_of_not_entry (h f (by simp)), hrest]
    simp

/-- Distributing comments keeps their sequence. -/
theorem attach_conserves (pending : List String) (fs : List Line.Form) :
    (attach pending (fs.map Line.Form.line)).1.flatMap Entry.comments ++
      (attach pending (fs.map Line.Form.line)).2 = pending ++ fs.flatMap docs := by
  induction fs generalizing pending with
  | nil => simp [attach]
  | cons f fs ih =>
    rw [List.map_cons]
    by_cases hf : f.isEntry = true
    · obtain ⟨indent, g, rfl⟩ := Line.Form.exists_entry hf
      have hrest := ih []
      rw [attach_entry, List.flatMap_cons, List.append_assoc, hrest]
      simp [docs, ownDocs, Line.Form.trailingDocs]
    · have hopen : f.isEntry = false := by simpa using hf
      have htrailing : f.trailingDocs = [] := by
        cases f <;> simp_all [isEntry, Line.Form.trailingDocs]
      rw [attach_of_not_entry hopen, ih]
      simp [docs, htrailing]

theorem length_attach (pending : List String) (fs : List Line.Form) :
    (attach pending (fs.map Line.Form.line)).1.length = fs.countP isEntry := by
  induction fs generalizing pending with
  | nil => rfl
  | cons f fs ih =>
    by_cases hf : f.isEntry = true
    · obtain ⟨indent, g, rfl⟩ := Line.Form.exists_entry hf
      rw [List.map_cons, attach_entry, List.length_cons, ih, List.countP_cons_of_pos hf]
    · rw [List.map_cons, attach_of_not_entry (by simpa using hf), ih, List.countP_cons_of_neg hf]

theorem attach_of_endInEntry {fs : List Line.Form} (h : EndInEntry fs) :
    (attach [] (fs.map Line.Form.line)).2 = [] := by
  rcases List.eq_nil_or_concat fs with rfl | ⟨front, last, rfl⟩
  · rfl
  · have hlast : last.isEntry = true := h last (by simp)
    obtain ⟨indent, g, rfl⟩ := Line.Form.exists_entry hlast
    rw [List.concat_eq_append, List.map_append, attach_append]
    rfl

theorem attach_read {h : Header} {c : Cursor} {b : Block} {ds : List Diagnostic}
    (hread : (read h c).1 = .success b ds) {xs : List Line.Form} {z : Line.Form}
    {rest : List Char} (hlayout : Body.Layout c.rest xs z rest) :
    b = ⟨h.name, (attach [] ((xs ++ [z]).map Line.Form.line)).1,
      h.comments ++ (attach [] ((xs ++ [z]).map Line.Form.line)).2⟩ := by
  have hbody : ofBody h (Body.read c) = .success b ds := hread
  rw [ofBody, Body.lines_read_of_layout hlayout] at hbody
  split_ifs at hbody
  exact (Outcome.success.inj hbody).1.symm

/-- A block that was read has the comments of its header and behind them those that no entry
took. Its entries are the entries of the text. Each has the comments on the lines between the
entry before it and its own, however many blank lines and remarks are among them, and then the one
behind its value; the comments behind the last entry are the ones left over. All of them together
are the documentation comments above the closing line, each once and in their order. -/
theorem read_documentation {h : Header} {c : Cursor} {b : Block} {ds : List Diagnostic}
    (hread : (read h c).1 = .success b ds) :
    (∃ xs z rest, Body.Layout c.rest xs z rest) ∧
    ∀ xs z rest, Body.Layout c.rest xs z rest →
      ∃ own, b.comments = h.comments ++ own ∧
        b.entries.flatMap Entry.comments ++ own = xs.flatMap docs ∧
        b.entries.length = (xs ++ [z]).countP isEntry ∧
        (∀ before between indent f after,
          xs ++ [z] = before ++ (between ++ .entry indent f :: after) → EndInEntry before →
            (∀ x ∈ between, x.isEntry = false) →
              b.entries[before.countP isEntry]? =
                some ⟨f.key, f.value.value, between.flatMap ownDocs ++ f.ending.docs⟩) ∧
        ∀ before after, xs ++ [z] = before ++ after → EndInEntry before →
          (∀ x ∈ after, x.isEntry = false) → own = after.flatMap ownDocs := by
  constructor
  · have hclosed : (Body.read c).closed = true := by
      by_contra hopen
      simp [read, ofBody, hopen] at hread
    obtain ⟨xs, z, hrest, hxs, hz, hfits⟩ := Body.exists_forms_of_closed c hclosed
    exact ⟨xs, z, _, hrest, hxs, hz, hfits⟩
  · intro xs z rest hlayout
    rw [attach_read hread hlayout]
    refine ⟨_, rfl, ?_, length_attach _ _, ?_, ?_⟩
    · rw [attach_conserves]
      simp [Line.Form.docs_of_closes hlayout.closes]
    · intro before between indent f after hlines hbefore hbetween
      have hnone := attach_of_endInEntry hbefore
      have hcount := length_attach [] before
      rw [hlines, List.map_append, attach_append, hnone, List.map_append, List.map_cons,
        attach_between hbetween, attach_entry, ← hcount]
      simp
    · intro before after hlines hbefore hafter
      have hnone := attach_of_endInEntry hbefore
      have hwait := attach_between hafter [] []
      rw [List.append_nil, List.nil_append] at hwait
      rw [hlines, List.map_append, attach_append, hnone, hwait]
      rfl

/-- Comments in front of an entry with a blank line and a remark among them, comment signs inside
a literal, and comments behind a value, behind the last entry and behind the brace. -/
theorem read_documentation_interleaved :
    ∃ b xs z rest,
      (read ⟨"db", ["head"]⟩ (.ofText ("/// one\n\n// no\n  ///two \na = \"///\" /// three\n" ++
        "b=true\n/// last\n\x7d /// not\n"))).1 =
          .success b [⟨.entry .skippedText, 8, 3, .warning⟩] ∧
      Body.Layout (Cursor.ofText ("/// one\n\n// no\n  ///two \na = \"///\" /// three\n" ++
        "b=true\n/// last\n\x7d /// not\n")).rest xs z rest ∧
      b.entries.map Entry.comments = [["one", "two", "three"], []] ∧
      b.entries.flatMap Entry.comments ++ ["last"] = xs.flatMap docs := by
  have hread : (read ⟨"db", ["head"]⟩ (.ofText ("/// one\n\n// no\n  ///two \na = \"///\" " ++
      "/// three\nb=true\n/// last\n\x7d /// not\n"))).1 =
      .success ⟨"db", [⟨"a", .quoted "///", ["one", "two", "three"]⟩, ⟨"b", .boolean true, []⟩],
        ["head", "last"]⟩ [⟨.entry .skippedText, 8, 3, .warning⟩] := by
    decide +kernel
  obtain ⟨⟨xs, z, rest, hlayout⟩, hall⟩ := read_documentation hread
  obtain ⟨own, hown, hdocs, -⟩ := hall xs z rest hlayout
  obtain rfl : ["last"] = own := by simpa using hown
  exact ⟨_, xs, z, rest, hread, hlayout, rfl, hdocs⟩

end Block
end ConfigBlock
