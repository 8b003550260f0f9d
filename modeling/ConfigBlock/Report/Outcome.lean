import ConfigBlock.Report.Diagnostic

/-!
# Outcomes

Reading something gives either a value, perhaps with warnings, or a failure. Both
carry the diagnostics met on the way, in the order of their discovery. Putting
diagnostics in front of an outcome is an action of lists on outcomes, which is what
lets several readings be chained without losing any report.
-/

namespace ConfigBlock

inductive Outcome (α : Type) where
  | success (value : α) (diagnostics : List Diagnostic)
  | failure (diagnostics : List Diagnostic)
  deriving DecidableEq, Repr

namespace Outcome

variable {α β γ : Type}

def isSuccess : Outcome α → Bool
  | .success .. => true
  | .failure _ => false

def isFailure (o : Outcome α) : Bool := !o.isSuccess

def value? : Outcome α → Option α
  | .success a _ => some a
  | .failure _ => none

def diagnostics : Outcome α → List Diagnostic
  | .success _ ds => ds
  | .failure ds => ds

def warnings (o : Outcome α) : List Diagnostic := o.diagnostics.filter (·.isWarning)

def errors (o : Outcome α) : List Diagnostic := o.diagnostics.filter (·.isError)

def map (f : α → β) : Outcome α → Outcome β
  | .success a ds => .success (f a) ds
  | .failure ds => .failure ds

/-- Put diagnostics in front of those of an outcome. -/
def withLeading (leading : List Diagnostic) : Outcome α → Outcome α
  | .success a ds => .success a (leading ++ ds)
  | .failure ds => .failure (leading ++ ds)

def mapDiagnostics (f : Diagnostic → Diagnostic) : Outcome α → Outcome α
  | .success a ds => .success a (ds.map f)
  | .failure ds => .failure (ds.map f)

/-- Move the diagnostics to the end of a running list and keep the value. -/
def record (o : Outcome α) (sink : List Diagnostic) : Option α × List Diagnostic :=
  (o.value?, sink ++ o.diagnostics)

def toExcept : Outcome α → Except (List Diagnostic) (α × List Diagnostic)
  | .success a ds => .ok (a, ds)
  | .failure ds => .error ds

/-- Compare two outcomes, their values by `same` and their diagnostics exactly. -/
def equalsBy (same : α → α → Bool) : Outcome α → Outcome α → Bool
  | .success a ds, .success b es => same a b && ds == es
  | .failure ds, .failure es => ds == es
  | _, _ => false

@[simp] theorem withLeading_success (ds es : List Diagnostic) (a : α) :
    (success a es).withLeading ds = .success a (ds ++ es) := rfl

@[simp] theorem withLeading_failure (ds es : List Diagnostic) :
    (failure es : Outcome α).withLeading ds = .failure (ds ++ es) := rfl

@[simp] theorem withLeading_nil (o : Outcome α) : o.withLeading [] = o := by
  cases o <;> rfl

@[simp] theorem withLeading_withLeading (ds es : List Diagnostic) (o : Outcome α) :
    (o.withLeading es).withLeading ds = o.withLeading (ds ++ es) := by
  cases o <;> simp [withLeading]

@[simp] theorem value?_withLeading (ds : List Diagnostic) (o : Outcome α) :
    (o.withLeading ds).value? = o.value? := by
  cases o <;> rfl

@[simp] theorem diagnostics_withLeading (ds : List Diagnostic) (o : Outcome α) :
    (o.withLeading ds).diagnostics = ds ++ o.diagnostics := by
  cases o <;> rfl

@[simp] theorem diagnostics_mapDiagnostics (f : Diagnostic → Diagnostic) (o : Outcome α) :
    (o.mapDiagnostics f).diagnostics = o.diagnostics.map f := by
  cases o <;> rfl

@[simp] theorem map_withLeading (f : α → β) (ds : List Diagnostic) (o : Outcome α) :
    (o.withLeading ds).map f = (o.map f).withLeading ds := by
  cases o <;> rfl

theorem withLeading_eq_success {ds es : List Diagnostic} {o : Outcome α} {a : α} :
    o.withLeading ds = .success a es ↔ ∃ fs, o = .success a fs ∧ es = ds ++ fs := by
  cases o with
  | success b fs =>
    constructor
    · rintro ⟨⟩
      exact ⟨fs, rfl, rfl⟩
    · rintro ⟨_, ⟨⟩, rfl⟩
      rfl
  | failure fs => simp [withLeading]

end Outcome
end ConfigBlock
