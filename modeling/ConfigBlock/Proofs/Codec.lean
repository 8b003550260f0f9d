import ConfigBlock.Json.Report
import ConfigBlock.Proofs.BlockJson
import ConfigBlock.Proofs.JsonFinite
import ConfigBlock.Proofs.Legible

/-!
# Decoding undoes encoding

Every type with documents has a codec: how a value is encoded and how a document is decoded. A codec
is faithful if the text of a value decodes to that value. Then different values have different
texts, and writing down again what an accepted text holds settles after one round, however the text
spelled it. All codecs of the library are faithful on the values that the machine can hold: counts
of 64 bits and finite numbers.
-/

namespace ConfigBlock

/-- How the values of a type are encoded as documents, and how documents are decoded. -/
structure Codec (α : Type) where
  toJson : α → Json
  ofJson? : Json → Option α

namespace Codec

variable {α : Type}

def text (k : Codec α) (a : α) : String := (k.toJson a).compact

/-- Read a text that holds the document of a value. -/
def ofText? (k : Codec α) (text : String) : Option α := (Json.read? text).bind k.ofJson?

/-- Decode a text and write down what it holds. -/
def rewrite? (k : Codec α) (text : String) : Option String := (k.ofText? text).map k.text

/-- The texts of the values in range decode to these values, so that no two of them have the same
text, and an accepted text is not changed any more once it was rewritten. What is assumed of a
value is asked for wherever its text is decoded. -/
structure Faithful (k : Codec α) (range assumed : α → Prop) : Prop where
  ofText?_text : ∀ a, range a → assumed a → k.ofText? (k.text a) = some a
  eq_of_text_eq : ∀ a b, range a → assumed a → range b → assumed b → k.text a = k.text b → a = b
  rewrite?_rewrite? : ∀ text, (∀ a, k.ofText? text = some a → assumed a) →
    (k.rewrite? text).bind k.rewrite? = k.rewrite? text

/-- A codec is faithful if it is so for documents, since these survive being written. -/
theorem faithful_of_documents {k : Codec α} {range assumed : α → Prop}
    (hproper : ∀ a, (k.toJson a).Proper)
    (hback : ∀ a, range a → assumed a → k.ofJson? (k.toJson a) = some a)
    (hrange : ∀ j a, k.ofJson? j = some a → range a) : k.Faithful range assumed := by
  have hread : ∀ a, range a → assumed a → k.ofText? (k.text a) = some a := by
    intro a ha hassumed
    have hdocument := Json.read?_write .compact (hproper a)
    rw [ofText?, text, Json.compact, hdocument, Option.bind_some, hback a ha hassumed]
  refine ⟨hread, ?_, ?_⟩
  · intro a b ha hassumedA hb hassumedB htext
    have hsame := hread a ha hassumedA
    rw [htext, hread b hb hassumedB] at hsame
    exact (Option.some.inj hsame).symm
  · intro text hassumed
    cases hdecode : k.ofText? text with
    | none => simp [rewrite?, hdecode]
    | some a =>
      obtain ⟨j, -, hj⟩ := Option.bind_eq_some_iff.1 hdecode
      have hagain := hread a (hrange j a hj) (hassumed a hdecode)
      simp [rewrite?, hdecode, hagain]

end Codec

namespace Json

theorem count?_ofNat {n : Nat} (h : n < UInt64.size) : (ofNat n).count? = some n := by
  have hint : (ofNat n).int? = some (n : Int) := by
    simp [ofNat, int?, JsonNumeral.int?]
  have hrange : 0 ≤ (n : Int) ∧ (n : Int) < UInt64.size := by omega
  rw [count?, hint, Option.bind_eq_bind, Option.bind_some, if_pos hrange, Int.toNat_natCast]

theorem count?_lt {j : Json} {n : Nat} (h : j.count? = some n) : n < UInt64.size := by
  obtain ⟨i, -, hi⟩ := Option.bind_eq_some_iff.1 h
  split_ifs at hi with hrange
  obtain rfl : i.toNat = n := Option.some.inj hi
  omega

theorem char?_toString (c : Char) : (text c.toString).char? = some c := by
  simp [char?, text?_text, Char.toString]

theorem carryingChar?_toString {α : Type} (f : Char → α) (c : Char) (early : Bool) :
    carryingChar? f (some ⟨text c.toString, early⟩) = some (f c) := by
  rw [carryingChar?, carrying?, char?_toString]
  rfl

theorem tagged?_record {tagName contentName : String} (h : tagName ≠ contentName) (tag : String)
    (content : Json) :
    tagged? tagName contentName (record [(tagName, text tag), (contentName, content)]) =
      some (tag, ⟨content, false⟩) := by
  have hbeq : (contentName == tagName) = false := by simpa using h.symm
  simp [record, tagged?, fields?, List.lookup_cons, text, tag?, tagged?.early, h, h.symm, hbeq]

theorem proper_ofNat (n : Nat) : (ofNat n).Proper := by
  simp [ofNat, Proper, Numeral.AllDigits]

end Json

namespace Position

def codec : Codec Position := ⟨toJson, ofJson?⟩

structure InRange (p : Position) : Prop where
  offset : p.offset < UInt64.size
  line : p.line < UInt64.size
  column : p.column < UInt64.size

theorem proper_toJson (p : Position) : p.toJson.Proper :=
  Json.proper_record (by simp [Json.proper_ofNat])

theorem ofJson?_of_fields? {j offset line column : Json}
    (h : j.fields? ["offset", "line", "column"] = some [some offset, some line, some column]) :
    ofJson? j = (do pure ⟨← offset.count?, ← line.count?, ← column.count?⟩) := by
  rw [ofJson?, h]
  rfl

theorem ofJson?_toJson {p : Position} (h : p.InRange) : ofJson? p.toJson = some p := by
  have hfields : p.toJson.fields? ["offset", "line", "column"] =
      some [some (.ofNat p.offset), some (.ofNat p.line), some (.ofNat p.column)] := by
    simp [toJson, Json.record, Json.fields?, List.lookup_cons]
  rw [ofJson?_of_fields? hfields, Json.count?_ofNat h.offset, Json.count?_ofNat h.line,
    Json.count?_ofNat h.column]
  rfl

theorem inRange_of_ofJson? {j : Json} {p : Position} (h : ofJson? j = some p) : p.InRange := by
  obtain ⟨fields, -, hfields⟩ := Option.bind_eq_some_iff.1 h
  split at hfields
  · obtain ⟨offset, hoffset, hfields⟩ := Option.bind_eq_some_iff.1 hfields
    obtain ⟨line, hline, hfields⟩ := Option.bind_eq_some_iff.1 hfields
    obtain ⟨column, hcolumn, hfields⟩ := Option.bind_eq_some_iff.1 hfields
    obtain rfl : ⟨offset, line, column⟩ = p := Option.some.inj hfields
    exact ⟨Json.count?_lt hoffset, Json.count?_lt hline, Json.count?_lt hcolumn⟩
  · simp at hfields

theorem faithful_codec : codec.Faithful InRange fun _ => True :=
  Codec.faithful_of_documents proper_toJson (fun _ hp _ => ofJson?_toJson hp)
    fun _ _ => inRange_of_ofJson?

end Position

namespace Severity

def codec : Codec Severity := ⟨toJson, ofJson?⟩

theorem ofJson?_toJson (s : Severity) : ofJson? s.toJson = some s := by
  cases s <;> rfl

theorem faithful_codec : codec.Faithful (fun _ => True) fun _ => True :=
  Codec.faithful_of_documents (fun s => Json.proper_text s.text) (fun s _ _ => ofJson?_toJson s)
    fun _ _ _ => trivial

end Severity

namespace Problem

open Json (carryingChar?_toString)

def codec : Codec Problem := ⟨toJson, ofJson?⟩

theorem literalOfJson?_literalToJson (p : LiteralProblem) (early : Bool) :
    literalOfJson? ⟨literalToJson p, early⟩ = some p := by
  cases p <;> rfl

/-- The same name stands for different variants in different parts; the part tells them apart. -/
theorem ofContent?_content (p : Problem) : ofContent? p.part ⟨p.content, false⟩ = some p := by
  cases p with
  | block q =>
    cases q with
    | unexpected c => exact carryingChar?_toString _ c false
    | endOfText => rfl
  | entry q =>
    cases q with
    | unexpected c => exact carryingChar?_toString _ c false
    | endOfText | skippedText => rfl
  | key q =>
    cases q with
    | missingEquals c => exact carryingChar?_toString _ c false
    | unexpected c => exact carryingChar?_toString _ c false
    | endOfText | endOfLine => rfl
  | value q =>
    cases q with
    | unexpected c => exact carryingChar?_toString _ c false
    | endOfText => rfl
  | literal q => cases q <;> rfl
  | numeral q =>
    cases q with
    | unexpected c => exact carryingChar?_toString _ c false
    | malformed text => rfl
    | integerForDouble | endOfText => rfl
  | boolean q =>
    cases q with
    | unexpected c => exact carryingChar?_toString _ c false
    | endOfText => rfl
  | env q =>
    cases q with
    | unexpected c => exact carryingChar?_toString _ c false
    | literal inner =>
      change (literalOfJson? ⟨literalToJson inner, false⟩).map (env <| .literal ·) = _
      rw [literalOfJson?_literalToJson]
      rfl
    | endOfText => rfl
  | comment q =>
    cases q with
    | unexpected c => exact carryingChar?_toString _ c false

theorem ofJson?_toJson (p : Problem) : ofJson? p.toJson = some p := by
  rw [ofJson?, toJson, Json.tagged?_record (by decide)]
  exact ofContent?_content p

theorem proper_variant (name : String) {content : Json} (h : content.Proper) :
    (variant name content).Proper :=
  Json.proper_record (by simpa using h)

theorem proper_literalToJson (p : LiteralProblem) : (literalToJson p).Proper := by
  cases p <;> exact Json.proper_text _

theorem proper_content (p : Problem) : p.content.Proper := by
  unfold content
  split
  all_goals first
    | exact Json.proper_text _
    | exact proper_variant _ (Json.proper_text _)
    | exact proper_literalToJson _
    | exact proper_variant _ (proper_literalToJson _)

theorem proper_toJson (p : Problem) : p.toJson.Proper :=
  Json.proper_record (by simp [Json.proper_text, p.proper_content])

theorem faithful_codec : codec.Faithful (fun _ => True) fun _ => True :=
  Codec.faithful_of_documents proper_toJson (fun p _ _ => ofJson?_toJson p) fun _ _ _ => trivial

end Problem

namespace Diagnostic

def codec : Codec Diagnostic := ⟨toJson, ofJson?⟩

structure InRange (d : Diagnostic) : Prop where
  line : d.line < UInt64.size
  column : d.column < UInt64.size

theorem proper_toJson (d : Diagnostic) : d.toJson.Proper :=
  Json.proper_record
    (by simp [Json.proper_ofNat, d.problem.proper_toJson, Severity.toJson, Json.proper_text])

theorem ofJson?_toJson {d : Diagnostic} (h : d.InRange) : ofJson? d.toJson = some d := by
  simp [ofJson?, toJson, Json.record, Json.fields?, List.lookup_cons, Json.count?_ofNat h.line,
    Json.count?_ofNat h.column, Problem.ofJson?_toJson, Severity.ofJson?_toJson]

theorem inRange_of_ofJson? {j : Json} {d : Diagnostic} (h : ofJson? j = some d) : d.InRange := by
  obtain ⟨fields, -, hfields⟩ := Option.bind_eq_some_iff.1 h
  split at hfields
  · obtain ⟨problem, -, hfields⟩ := Option.bind_eq_some_iff.1 hfields
    obtain ⟨line, hline, hfields⟩ := Option.bind_eq_some_iff.1 hfields
    obtain ⟨column, hcolumn, hfields⟩ := Option.bind_eq_some_iff.1 hfields
    obtain ⟨severity, -, hfields⟩ := Option.bind_eq_some_iff.1 hfields
    obtain rfl : ⟨problem, line, column, severity⟩ = d := Option.some.inj hfields
    exact ⟨Json.count?_lt hline, Json.count?_lt hcolumn⟩
  · simp at hfields

theorem faithful_codec : codec.Faithful InRange fun _ => True :=
  Codec.faithful_of_documents proper_toJson (fun _ hd _ => ofJson?_toJson hd)
    fun _ _ => inRange_of_ofJson?

end Diagnostic

namespace Header

def codec : Codec Header := ⟨toJson, ofJson?⟩

theorem ofJson?_toJson (h : Header) : ofJson? h.toJson = some h := by
  simp [ofJson?, toJson, Json.record, Json.fields?, List.lookup_cons, Json.text?_text,
    Json.list?_texts]

theorem faithful_codec : codec.Faithful (fun _ => True) fun _ => True :=
  Codec.faithful_of_documents
    (fun _ => Json.proper_record (by simp [Json.proper_text, Json.proper_texts]))
    (fun h _ _ => ofJson?_toJson h) fun _ _ _ => trivial

end Header

namespace Value

def codec : Codec Value := ⟨toJson, ofJson?⟩

/-- The reader of JSON numbers gives back the finite double whose digits were written. -/
def NumberReadsBack : Value → Prop
  | .number d => d.isFinite = true → d.SurvivesJson
  | _ => True

theorem survivesJson {v : Value} (hfinite : v.Finite) (h : v.NumberReadsBack) :
    v.SurvivesJson := by
  cases v with
  | number d => exact h hfinite
  | _ => trivial

theorem finite_of_ofContent? {tag : String} {j : Json} {v : Value}
    (h : ofContent? tag j = some v) : v.Finite := by
  unfold ofContent? at h
  split at h
  case h_4 =>
    obtain ⟨d, hd, rfl⟩ := Option.map_eq_some_iff.1 h
    exact Json.isFinite_of_double? hd
  case h_7 => simp at h
  all_goals
    obtain ⟨a, -, rfl⟩ := Option.map_eq_some_iff.1 h
    trivial

theorem finite_of_ofJson? {j : Json} {v : Value} (h : ofJson? j = some v) : v.Finite := by
  obtain ⟨⟨tag, c⟩, -, hcontent⟩ := Option.bind_eq_some_iff.1 h
  exact finite_of_ofContent? hcontent

theorem faithful_codec : codec.Faithful Finite NumberReadsBack :=
  Codec.faithful_of_documents proper_toJson
    (fun _ hfinite h => ofJson?_toJson (survivesJson hfinite h)) fun _ _ => finite_of_ofJson?

end Value

namespace Entry

def codec : Codec Entry := ⟨toJson, ofJson?⟩

theorem finite_of_ofJson? {j : Json} {e : Entry} (h : ofJson? j = some e) : e.value.Finite := by
  obtain ⟨fields, -, hfields⟩ := Option.bind_eq_some_iff.1 h
  split at hfields
  · obtain ⟨key, -, hfields⟩ := Option.bind_eq_some_iff.1 hfields
    obtain ⟨value, hvalue, hfields⟩ := Option.bind_eq_some_iff.1 hfields
    obtain ⟨comments, -, hfields⟩ := Option.bind_eq_some_iff.1 hfields
    obtain rfl : ⟨key, value, comments⟩ = e := Option.some.inj hfields
    exact Value.finite_of_ofJson? hvalue
  · simp at hfields

theorem faithful_codec :
    codec.Faithful (fun e => e.value.Finite) fun e => e.value.NumberReadsBack :=
  Codec.faithful_of_documents proper_toJson
    (fun _ hfinite h => ofJson?_toJson (Value.survivesJson hfinite h)) fun _ _ => finite_of_ofJson?

end Entry

theorem Json.forall_of_list? {α : Type} {item? : Json → Option α} {p : α → Prop}
    (hitem : ∀ j a, item? j = some a → p a) {j : Json} {as : List α}
    (h : j.list? item? = some as) : ∀ a ∈ as, p a := by
  cases j with
  | array items =>
    replace h : items.mapM item? = some as := h
    induction items generalizing as with
    | nil =>
      obtain rfl : [] = as := Option.some.inj h
      simp
    | cons item items ih =>
      rw [List.mapM_cons] at h
      obtain ⟨a, ha, hrest⟩ := Option.bind_eq_some_iff.1 h
      obtain ⟨later, hlater, hlist⟩ := Option.bind_eq_some_iff.1 hrest
      obtain rfl : a :: later = as := Option.some.inj hlist
      exact List.forall_mem_cons.2 ⟨hitem item a ha, ih hlater⟩
  | _ => simp [list?] at h

namespace Block

def codec : Codec Block := ⟨toJson, ofJson?⟩

theorem finite_of_ofJson? {j : Json} {b : Block} (h : ofJson? j = some b) :
    ∀ e ∈ b.entries, e.value.Finite := by
  obtain ⟨fields, -, hfields⟩ := Option.bind_eq_some_iff.1 h
  split at hfields
  · obtain ⟨name, -, hfields⟩ := Option.bind_eq_some_iff.1 hfields
    obtain ⟨entries, hentries, hfields⟩ := Option.bind_eq_some_iff.1 hfields
    obtain ⟨comments, -, hfields⟩ := Option.bind_eq_some_iff.1 hfields
    obtain rfl : ⟨name, entries, comments⟩ = b := Option.some.inj hfields
    exact Json.forall_of_list? (fun _ _ => Entry.finite_of_ofJson?) hentries
  · simp at hfields

theorem faithful_codec : codec.Faithful (fun b => ∀ e ∈ b.entries, e.value.Finite)
    fun b => ∀ e ∈ b.entries, e.value.NumberReadsBack :=
  Codec.faithful_of_documents proper_toJson
    (fun _ hfinite h => ofJson?_toJson fun e he => Value.survivesJson (hfinite e he) (h e he))
    fun _ _ => finite_of_ofJson?

end Block

/-- Decoding undoes encoding for every type with documents. All that is assumed is that a finite
number is read back from the digits it was written with. -/
theorem Codec.decoding_undoes_encoding :
    Position.codec.Faithful Position.InRange (fun _ => True) ∧
    Severity.codec.Faithful (fun _ => True) (fun _ => True) ∧
    Problem.codec.Faithful (fun _ => True) (fun _ => True) ∧
    Diagnostic.codec.Faithful Diagnostic.InRange (fun _ => True) ∧
    Header.codec.Faithful (fun _ => True) (fun _ => True) ∧
    Value.codec.Faithful Value.Finite Value.NumberReadsBack ∧
    Entry.codec.Faithful (fun e => e.value.Finite) (fun e => e.value.NumberReadsBack) ∧
    Block.codec.Faithful (fun b => ∀ e ∈ b.entries, e.value.Finite)
      (fun b => ∀ e ∈ b.entries, e.value.NumberReadsBack) :=
  ⟨Position.faithful_codec, Severity.faithful_codec, Problem.faithful_codec,
    Diagnostic.faithful_codec, Header.faithful_codec, Value.faithful_codec, Entry.faithful_codec,
    Block.faithful_codec⟩

/-- A newline in a diagnostic and a quote beside a number both survive. -/
theorem Codec.decoding_undoes_encoding_escaped :
    let d : Diagnostic := ⟨.env (.unexpected '\n'), 3, 7, .error⟩
    let e : Entry := ⟨"rate", .number (.ofRatio false 1 2), ["a \"half\""]⟩
    Diagnostic.codec.ofText? (Diagnostic.codec.text d) = some d ∧
      Entry.codec.ofText? (Entry.codec.text e) = some e := by
  intro d e
  obtain ⟨-, -, -, hdiagnostic, -, -, hentry, -⟩ := Codec.decoding_undoes_encoding
  have hrange : d.InRange := ⟨by decide, by decide⟩
  have hfinite : e.value.Finite := by decide +kernel
  have hnumber : e.value.NumberReadsBack := fun _ => by decide +kernel
  exact ⟨hdiagnostic.ofText?_text d hrange trivial, hentry.ofText?_text e hfinite hnumber⟩

end ConfigBlock
