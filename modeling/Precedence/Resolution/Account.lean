import Precedence.Resolution.Basic

/-!
# What a log says

A log read by itself, without the registry that it is about: where walks have started, which
dependencies have been looked at, which places have been given, what has been warned of, and what
has come of it all.
-/

namespace Precedence

namespace Log

/-- A dependency that has been looked at, and its kind. -/
structure Dependency (ι : Type) where
  source : ι
  target : ι
  kind : EdgeKind
  deriving DecidableEq, Repr

/-- The dependency is that of `a` on `b`. -/
def Dependency.joins {ι : Type} [BEq ι] (d : Dependency ι) (a b : ι) : Bool :=
  d.source == a && d.target == b

namespace Entry

variable {ι : Type}

/-- The node from which a walk starts, if an entry tells of one. -/
def start? : Entry ι → Option NodeIndex
  | walking start _ => some start
  | _ => none

/-- The dependency that has been looked at, if an entry tells of one. -/
def dependency? : Entry ι → Option (Dependency ι)
  | dependency source target kind => some ⟨source, target, kind⟩
  | _ => none

/-- The identifier that has been ordered and its position, if an entry tells of one. -/
def place? : Entry ι → Option (ι × Nat)
  | ordered id position => some (id, position)
  | _ => none

/-- The entry warns. -/
def isWarning (e : Entry ι) : Bool := e.level == .warn

end Entry

variable {ι : Type}

/-- The nodes from which walks have started, in order. -/
def starts (log : List (Entry ι)) : List NodeIndex := log.filterMap Entry.start?

/-- The dependencies that have been looked at, in order. -/
def dependencies (log : List (Entry ι)) : List (Dependency ι) := log.filterMap Entry.dependency?

/-- The dependencies that have closed a cycle. -/
def backs (log : List (Entry ι)) : List (Dependency ι) :=
  (dependencies log).filter (·.kind.isBack)

/-- The identifiers that have been ordered, each with its position, in order. -/
def places (log : List (Entry ι)) : List (ι × Nat) := log.filterMap Entry.place?

/-- The warnings, in order. -/
def warnings (log : List (Entry ι)) : List (Entry ι) := log.filter Entry.isWarning

/-- What has come of it: the identifiers in order, or the reason why they have none. The last entry
tells which. -/
def verdict? (log : List (Entry ι)) : Option (Except (ResolveError ι) (List ι)) :=
  match log.getLast? with
  | some (.resolved _) => some (.ok ((places log).map (·.1)))
  | some (.cycle source target) => some (.error (.cycle source target))
  | some (.rejecting ids) => some (.error (.unresolved ids))
  | _ => none

section
variable (log : List (Entry ι)) (e : Entry ι)

@[simp] theorem starts_concat : starts (log ++ [e]) = starts log ++ e.start?.toList := by
  cases h : e.start? <;> simp [starts, h]

@[simp] theorem dependencies_concat :
    dependencies (log ++ [e]) = dependencies log ++ e.dependency?.toList := by
  cases h : e.dependency? <;> simp [dependencies, h]

@[simp] theorem backs_concat :
    backs (log ++ [e]) = backs log ++ e.dependency?.toList.filter (·.kind.isBack) := by
  simp [backs]

@[simp] theorem places_concat : places (log ++ [e]) = places log ++ e.place?.toList := by
  cases h : e.place? <;> simp [places, h]

@[simp] theorem warnings_concat :
    warnings (log ++ [e]) = warnings log ++ if e.isWarning then [e] else [] := by
  cases h : e.isWarning <;> simp [warnings, h]

end

end Log

end Precedence
