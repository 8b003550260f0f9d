import ConfigBlock.Command
import ConfigBlock.Proofs.BlockJson
import ConfigBlock.Proofs.Series

/-!
# What the command shows

The command reads a header and a body, fills in a missing name, and shows the block twice. Both
texts stand for the block: the document decodes to it, and the canonical form, given to the
command again, is shown as the very same output with nothing to report. The comments above a
header move to the end of the body on the way, where the second run leaves them.
-/

namespace ConfigBlock

namespace Header

theorem newline_notMem_lineText (c : Cursor) : '\n' ∉ c.lineText := by
  intro hn
  have hkept := List.all_eq_true.1 (List.all_takeWhile (p := (!CharClass.isNewline ·))) '\n' hn
  exact absurd hkept (by decide)

theorem legible_of_role {line : List Char} (hline : '\n' ∉ line) {doc : Option String}
    (h : role line = .skipped doc) : ∀ text ∈ doc, Comment.Legible text := by
  unfold role at h
  dsimp only at h
  split_ifs at h with hdoc
  · obtain rfl : some (String.ofList (WhiteSpace.trim ((WhiteSpace.trim line).drop 3))) = doc := by
      simpa using h
    rintro text ⟨⟩
    rw [Comment.Legible, String.toList_ofList]
    refine ⟨fun hn => hline ?_, WhiteSpace.trim_trim _⟩
    exact WhiteSpace.mem_of_mem_trim (List.mem_of_mem_drop (WhiteSpace.mem_of_mem_trim hn))
  · obtain rfl : none = doc := by simpa using h
    simp

theorem word_of_role {line : List Char} {name : String} (h : role line = .opening name) :
    ∀ c ∈ name.toList, WhiteSpace.isWhite c = false := by
  unfold role at h
  dsimp only at h
  split_ifs at h
  obtain rfl : String.ofList (WhiteSpace.lastWord (WhiteSpace.trim line).dropLast) = name := by
    simpa using h
  rw [String.toList_ofList]
  exact fun c hc => WhiteSpace.isWhite_of_mem_lastWord hc

/-- A name that is one word, and comments that can be written above an entry. -/
structure Legible (h : Header) : Prop where
  word : ∀ c ∈ h.name.toList, WhiteSpace.isWhite c = false
  comments : ∀ text ∈ h.comments, Comment.Legible text

theorem legible_of_seek? {comments : List String} {c c' : Cursor} {header : Header}
    (h : seek? comments c = some (header, c')) (hc : ∀ text ∈ comments, Comment.Legible text) :
    header.Legible := by
  fun_induction seek? comments c with
  | case1 => simp at h
  | case2 comments c hend doc hrole ih =>
    have hdoc := legible_of_role (newline_notMem_lineText c) hrole
    apply ih h
    exact List.forall_mem_append.2 ⟨hc, fun text ht => hdoc text (Option.mem_toList.1 ht)⟩
  | case3 comments c hend name hrole =>
    obtain ⟨rfl, -⟩ : ⟨name, comments⟩ = header ∧ c.skipLine = c' := by simpa using h
    exact ⟨word_of_role hrole, hc⟩
  | case4 => simp at h

theorem legible_of_skip (c : Cursor) : ((skip c).1.getD .unnamed).Legible := by
  unfold skip
  split
  · next h => exact legible_of_seek? h (by simp)
  · exact ⟨by simp [unnamed], by simp [unnamed]⟩

end Header

namespace Block

theorem read_rename (h : Header) (name : String) (c : Cursor) :
    (read { h with name := name } c).1 = (read h c).1.map fun b => { b with name := name } := by
  simp only [read, ofBody]
  split_ifs
  · rfl
  · rfl

theorem name_of_read {h : Header} {c : Cursor} {b : Block} {ds : List Diagnostic}
    (hread : (read h c).1 = .success b ds) : b.name = h.name := by
  obtain ⟨fs, rfl, -⟩ := exists_forms_of_read hread
  rfl

theorem readNext_text {b : Block} (hp : b.Printable) (hn : Header.Nameable b.name) :
    (readNext (.ofText b.text)).1 = .success b.normal [] := by
  have htext : Cursor.ofText b.text = ⟨Header.line b.name ++ '\n' :: b.printBody, .origin⟩ := by
    rw [Cursor.ofText, text, String.toList_ofList, print_eq]
    rfl
  have hread := read_of_printable hp []
  simp only [List.append_nil] at hread
  rw [readNext, htext, Header.skip_line hn]
  exact congrArg Prod.fst (hread _)

end Block

namespace Command

/-- The block as it is shown if no name is asked for: one without a name is called `block`. -/
def shown (found : Block) : Block :=
  { found with name := if found.name = "" then "block" else found.name }

theorem present_none (content : String) :
    present none content = match (Block.readNext (.ofText content)).1 with
      | .success found ds => ⟨0, display (shown found), report ds⟩
      | .failure ds => ⟨1, "", report ds⟩ := by
  -- The name is filled in before the body is read, but reading a body does not look at it.
  rcases hskip : Header.skip (.ofText content) with ⟨header?, body⟩
  have hnext : (Block.readNext (.ofText content)).1 =
      (Block.read (header?.getD .unnamed) body).1 := by
    rw [Block.readNext, hskip]
  have hname := Block.read_rename (header?.getD .unnamed)
    (blockName none (header?.getD .unnamed)) body
  rw [hnext, present, hskip]
  dsimp only
  rw [hname]
  rcases hread : (Block.read (header?.getD .unnamed) body).1 with ⟨found, ds⟩ | ds
  · have hshown : shown found =
        { found with name := blockName none (header?.getD .unnamed) } := by
      rw [shown, Block.name_of_read hread]
      rfl
    exact congrArg (fun b => Result.mk 0 (display b) (report ds)) hshown.symm
  · rfl

theorem decode_toUTF8 (content : String) : decode content.toUTF8 = .ok content := by
  have hvalid : String.fromUTF8? content.toUTF8 = some content := by
    simp only [String.fromUTF8?, String.toUTF8_eq_toByteArray, dif_pos content.isValidUTF8]
    rfl
  rw [decode, hvalid]

theorem run_path {file : String → Except FileProblem ByteArray} {path content : String}
    (h : file path = .ok content.toUTF8) : run [path] file = present none content := by
  rw [run, h, onFile, decode_toUTF8]
  rfl

theorem name_shown_ne_empty (found : Block) : (shown found).name ≠ "" := by
  simp only [shown]
  split_ifs with hname
  · decide
  · exact hname

theorem shown_shown (found : Block) : shown (shown found) = shown found := by
  rw [shown, if_neg (name_shown_ne_empty found)]

section

variable {content : String} {found : Block} {ds : List Diagnostic}

/-- The name that is shown is one word, so only a leading comment sign can spoil its header. -/
theorem nameable_shown
    (hread : (Block.readNext (.ofText content)).1 = .success found ds)
    (hcomment : ¬['/', '/'] <+: (shown found).name.toList) :
    Header.Nameable (shown found).name := by
  refine ⟨?_, hcomment⟩
  have hname : found.name = ((Header.skip (.ofText content)).1.getD .unnamed).name :=
    Block.name_of_read hread
  have hword := (Header.legible_of_skip (.ofText content)).word
  have hdefault : Header.Nameable "block" := by decide
  rw [← hname] at hword
  simp only [shown]
  split_ifs
  · exact hdefault.word
  · exact hword

theorem printable_shown
    (hread : (Block.readNext (.ofText content)).1 = .success found ds)
    (hds : ∀ d ∈ ds, ¬d.DropsControl) (hfinite : ∀ e ∈ found.entries, e.value.Finite) :
    (shown found).Printable ∧ (shown found).normal = shown found := by
  have hcomments := (Header.legible_of_skip (.ofText content)).comments
  obtain ⟨hlegible, hnormal⟩ := Block.legible_of_read hread hds hcomments
  refine ⟨⟨⟨hlegible.entries, hlegible.comments⟩, hfinite⟩, ?_⟩
  have hentries : found.entries.map Entry.normal = found.entries :=
    congrArg Block.entries hnormal
  simp [Block.normal, shown, hentries]

/-- The canonical form is shown as what it is the canonical form of. -/
theorem present_text
    (hread : (Block.readNext (.ofText content)).1 = .success found ds)
    (hds : ∀ d ∈ ds, ¬d.DropsControl) (hfinite : ∀ e ∈ found.entries, e.value.Finite)
    (hname : ¬['/', '/'] <+: (shown found).name.toList) :
    present none (shown found).text = ⟨0, display (shown found), ""⟩ := by
  obtain ⟨hprintable, hnormal⟩ := printable_shown hread hds hfinite
  have hnext := Block.readNext_text hprintable (nameable_shown hread hname)
  rw [present_none, hnext, hnormal]
  dsimp only
  rw [shown_shown]
  rfl

end

/-- Without a name asked for, the command succeeds exactly if header and body can be read, and
otherwise only reports. If nothing of the block was left out in reading, its numbers are finite
and its name does not open a comment, then the document it shows decodes to the block, and the
canonical form it shows is shown again as it is. -/
theorem run_canonical {file : String → Except FileProblem ByteArray} {path content : String}
    (hfile : file path = .ok content.toUTF8) :
    ((run [path] file).exitCode = 0 ↔ (Block.readNext (.ofText content)).1.isSuccess = true) ∧
    (∀ ds, (Block.readNext (.ofText content)).1 = .failure ds →
      run [path] file = ⟨1, "", String.join (ds.map fun d => d.text ++ "\n")⟩) ∧
    ∀ found ds, (Block.readNext (.ofText content)).1 = .success found ds →
      run [path] file = ⟨0, "KVBLOCK:\n" ++ (shown found).toJson.indented ++
        "\n\nCANONICAL:\n" ++ (shown found).text, report ds⟩ ∧
      ((∀ d ∈ ds, ¬d.DropsControl) → (∀ e ∈ found.entries, e.value.Finite) →
        ¬['/', '/'] <+: (shown found).name.toList →
          ((∀ e ∈ found.entries, e.value.SurvivesJson) →
            Block.ofJsonText? (shown found).toJson.indented = some (shown found)) ∧
          ∀ file' path', file' path' = .ok (shown found).text.toUTF8 →
            run [path'] file' = ⟨0, (run [path] file).output, ""⟩) := by
  have hrun := (run_path hfile).trans (present_none content)
  refine ⟨?_, ?_, ?_⟩
  · rw [hrun]
    rcases (Block.readNext (.ofText content)).1 with ⟨found, ds⟩ | ds <;>
      simp [Outcome.isSuccess]
  · intro ds hread
    rw [hrun, hread]
    rfl
  · intro found ds hread
    have hshow : run [path] file = ⟨0, display (shown found), report ds⟩ := by
      rw [hrun, hread]
    refine ⟨hshow, fun hds hfinite hname => ⟨fun hjson => ?_, fun file' path' hfile' => ?_⟩⟩
    · exact Block.ofJsonText?_write .indented hjson
    · rw [run_path hfile', present_text hread hds hfinite hname, hshow]

/-- Comments above the header and behind a value, a number with no whole part, no last newline. -/
theorem run_canonical_datasource :
    Block.ofJsonText? (Block.toJson ⟨"db", [⟨"share", .number (.ofRatio false 1 2),
        ["at most one"]⟩, ⟨"url", .env "URL", []⟩], ["The database."]⟩).indented =
      some ⟨"db", [⟨"share", .number (.ofRatio false 1 2), ["at most one"]⟩,
        ⟨"url", .env "URL", []⟩], ["The database."]⟩ ∧
    run ["again"] (fun _ => .ok (String.toUTF8 ("db \x7b\n  /// at most one\n" ++
        "  share = 0.5\n  url = env(\"URL\")\n  /// The database.\n\x7d\n"))) =
      run ["schema"] fun _ => .ok (String.toUTF8 ("\n/// The database.\ndatasource db \x7b\n" ++
        "share = .50/// at most one\nurl=env( \"URL\" ) // set outside\n\n\x7d")) := by
  have hread : (Block.readNext (.ofText ("\n/// The database.\ndatasource db \x7b\n" ++
      "share = .50/// at most one\nurl=env( \"URL\" ) // set outside\n\n\x7d"))).1 =
      .success ⟨"db", [⟨"share", .number (.ofRatio false 1 2), ["at most one"]⟩,
        ⟨"url", .env "URL", []⟩], ["The database."]⟩ [] := by
    decide +kernel
  have htext : Block.text (shown ⟨"db", [⟨"share", .number (.ofRatio false 1 2),
      ["at most one"]⟩, ⟨"url", .env "URL", []⟩], ["The database."]⟩) = "db \x7b\n  /// at most one\n" ++
        "  share = 0.5\n  url = env(\"URL\")\n  /// The database.\n\x7d\n" := by
    decide +kernel
  obtain ⟨-, -, hsuccess⟩ := @run_canonical (fun _ => .ok (String.toUTF8 _)) "schema" _ rfl
  obtain ⟨hrun, hagain⟩ := hsuccess _ _ hread
  obtain ⟨hjson, htwice⟩ := hagain (by simp) (by decide +kernel) (by decide +kernel)
  refine ⟨hjson (by decide +kernel), ?_⟩
  rw [← htext, htwice (fun _ => .ok (String.toUTF8 _)) "again" rfl, hrun]
  rfl

end Command
end ConfigBlock
