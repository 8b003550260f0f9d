import ConfigBlock.Json.Block
import ConfigBlock.Proofs.JsonReadBack

/-!
# Blocks survive JSON

The document of a block can be written, and what is read from its text decodes to the block
again. Only doubles need an assumption: the reader of JSON rounds more than once, so that a few
of them come back as a neighbour, and a number that is not finite has no document at all.
-/

namespace ConfigBlock

/-- A double that its JSON document stands for. -/
def Double.SurvivesJson (d : Double) : Prop := (Json.ofDouble d).double? = some d

def Value.SurvivesJson : Value → Prop
  | .number d => d.SurvivesJson
  | _ => True

instance : DecidablePred Double.SurvivesJson := fun _ =>
  inferInstanceAs (Decidable (_ = _))

instance : DecidablePred Value.SurvivesJson
  | .number d => inferInstanceAs (Decidable d.SurvivesJson)
  | .text _ | .quoted _ | .env _ | .integer _ | .boolean _ => .isTrue trivial

namespace Json

theorem text?_text (s : String) : (text s).text? = some s := rfl

theorem list?_map {α : Type} {item? : Json → Option α} {item : α → Json} {as : List α}
    (h : ∀ a ∈ as, item? (item a) = some a) : (array (as.map item)).list? item? = some as := by
  rw [list?]
  induction as with
  | nil => rfl
  | cons a as ih =>
    rw [List.map_cons, List.mapM_cons, h a (by simp), ih fun b hb => h b (by simp [hb])]
    rfl

theorem list?_texts (ss : List String) : (texts ss).list? text? = some ss :=
  list?_map fun s _ => text?_text s

theorem int?_ofInt (n : Int) : (ofInt n).int? = some n := by
  have hzero : ¬(decide (n < 0) = true ∧ n.natAbs = 0) := by
    rw [decide_eq_true_eq]
    omega
  change JsonNumeral.int? ⟨decide (n < 0), n.natAbs, [], none⟩ = some n
  rw [JsonNumeral.int?, if_pos ⟨rfl, rfl, hzero⟩]
  by_cases hneg : n < 0
  · simp only [hneg, decide_true, if_true]
    exact congrArg some (by omega)
  · simp only [hneg, decide_false, Bool.false_eq_true, if_false]
    exact congrArg some (by omega)

theorem int64?_ofInt (n : Int64) : (ofInt n.toInt).int64? = some n := by
  have hrange : Int64.minValue.toInt ≤ n.toInt ∧ n.toInt ≤ Int64.maxValue.toInt :=
    ⟨Int64.minValue_le_toInt n, Int64.toInt_le n⟩
  rw [int64?, int?_ofInt]
  change (if _ then some (Int64.ofInt n.toInt) else none) = _
  rw [if_pos hrange, Int64.ofInt_toInt]

theorem properItems_iff (items : List Json) : ProperItems items ↔ ∀ j ∈ items, j.Proper := by
  induction items with
  | nil => simp [ProperItems]
  | cons item items ih => simp [ProperItems, ih]

theorem properMembers_iff (members : List (Option String × Json)) :
    ProperMembers members ↔ ∀ m ∈ members, m.2.Proper := by
  induction members with
  | nil => simp [ProperMembers]
  | cons m members ih => simp [ProperMembers, ih]

theorem proper_text (s : String) : (text s).Proper := by simp [text, Proper]

theorem proper_array_map {α : Type} {item : α → Json} {as : List α}
    (h : ∀ a ∈ as, (item a).Proper) : (array (as.map item)).Proper := by
  rw [Proper, properItems_iff]
  simpa using h

theorem proper_record {members : List (String × Json)} (h : ∀ m ∈ members, m.2.Proper) :
    (record members).Proper := by
  rw [record, Proper, properMembers_iff]
  intro m hm
  obtain ⟨m', hm', rfl⟩ := List.mem_map.1 hm
  exact h m' hm'

theorem proper_texts (ss : List String) : (texts ss).Proper :=
  proper_array_map fun s _ => proper_text s

theorem allDigits_zero : Numeral.AllDigits ['0'] := by simp [Numeral.AllDigits, CharClass.isDigit]

theorem allDigits_ofDecimal (negative : Bool) (d : Decimal) :
    Numeral.AllDigits (JsonNumeral.ofDecimal negative d).fraction := by
  have hfraction (d : Decimal) : Numeral.AllDigits d.fraction :=
    Numeral.allDigits_lastDigits d.places d.digits
  unfold JsonNumeral.ofDecimal
  dsimp only
  split_ifs
  · exact allDigits_zero
  · exact hfraction d
  · exact hfraction _

theorem proper_ofDouble (d : Double) : (ofDouble d).Proper := by
  cases d with
  | finite negative rank =>
    rw [ofDouble]
    split_ifs
    · rw [Proper]
      exact allDigits_zero
    · rw [Proper]
      exact allDigits_ofDecimal negative _
  | infinite negative => simp [ofDouble, Proper]
  | nan => simp [ofDouble, Proper]

end Json

namespace Value

theorem ofContent?_content {v : Value} (h : v.SurvivesJson) :
    ofContent? v.tag v.content = some v := by
  cases v with
  | text s => rfl
  | quoted s => rfl
  | integer n =>
    change (Json.ofInt n.toInt).int64?.map integer = some (integer n)
    rw [Json.int64?_ofInt]
    rfl
  | number d =>
    change (Json.ofDouble d).double?.map number = some (number d)
    rw [show (Json.ofDouble d).double? = some d from h]
    rfl
  | boolean b => rfl
  | env name => rfl

theorem ofJson?_toJson {v : Value} (h : v.SurvivesJson) : ofJson? v.toJson = some v := by
  have hcontent := ofContent?_content h
  simp [ofJson?, toJson, Json.record, Json.tagged?, Json.fields?, List.lookup_cons, Json.text,
    Json.tag?, hcontent]

theorem proper_toJson (v : Value) : v.toJson.Proper := by
  have hcontent : v.content.Proper := by
    cases v with
    | number d => exact Json.proper_ofDouble d
    | integer n => simp [content, Json.ofInt, Json.Proper, Numeral.AllDigits]
    | _ => simp [content, Json.text, Json.Proper]
  exact Json.proper_record (by simp [Json.proper_text, hcontent])

end Value

namespace Entry

theorem ofJson?_toJson {e : Entry} (h : e.value.SurvivesJson) : ofJson? e.toJson = some e := by
  have hvalue := Value.ofJson?_toJson h
  simp [ofJson?, toJson, Json.record, Json.fields?, List.lookup_cons, Json.text?_text, hvalue,
    Json.list?_texts]

theorem proper_toJson (e : Entry) : e.toJson.Proper :=
  Json.proper_record (by simp [Json.proper_text, Json.proper_texts, Value.proper_toJson])

end Entry

namespace Block

theorem ofJson?_toJson {b : Block} (h : ∀ e ∈ b.entries, e.value.SurvivesJson) :
    ofJson? b.toJson = some b := by
  have hentries : (Json.array (b.entries.map Entry.toJson)).list? Entry.ofJson? =
      some b.entries :=
    Json.list?_map fun e he => Entry.ofJson?_toJson (h e he)
  simp [ofJson?, toJson, Json.record, Json.fields?, List.lookup_cons, Json.text?_text, hentries,
    Json.list?_texts]

theorem proper_toJson (b : Block) : b.toJson.Proper := by
  have hentries : (Json.array (b.entries.map Entry.toJson)).Proper :=
    Json.proper_array_map fun e _ => e.proper_toJson
  exact Json.proper_record (by simp [Json.proper_text, Json.proper_texts, hentries])

/-- Read a text that holds the document of a block. -/
def ofJsonText? (text : String) : Option Block := (Json.read? text).bind ofJson?

/-- The text of the document of a block, in either layout, holds that block. -/
theorem ofJsonText?_write (layout : JsonLayout) {b : Block}
    (h : ∀ e ∈ b.entries, e.value.SurvivesJson) :
    ofJsonText? (String.ofList (Json.write layout 0 b.toJson)) = some b := by
  rw [ofJsonText?, Json.read?_write layout b.proper_toJson, Option.bind_some, ofJson?_toJson h]

-- Two roundings, of the power of ten and of the quotient, miss a double that one rounding meets.
example : ¬(Double.ofRatio false 23 (powerOfTen 23)).SurvivesJson := by decide +kernel

end Block
end ConfigBlock
