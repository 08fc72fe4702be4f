import Mathlib.Logic.Relation
import Precedence.Registry.Basic

/-!
# What a history says

A history of calls read as plain data: which identifiers it mentions, which dependencies it
declares and which payloads it gives, all in the order of the calls. Identifiers are compared
with `==` alone, and the first spelling stands for all.
-/

namespace Precedence

open Relation (TransGen)

namespace Registration

variable {ι α : Type}

/-- The identifiers a call mentions: a dependent before its dependencies. -/
def mentions : Registration ι α → List ι
  | node id _ => [id]
  | dependencies id ids => id :: ids
  | declaration d => d.id :: d.dependsOn
  | declarations ds => ds.flatMap fun d => d.id :: d.dependsOn

/-- The dependencies a call declares, as pairs of a dependent and a dependency. -/
def declares : Registration ι α → List (ι × ι)
  | node _ _ => []
  | dependencies id ids => ids.map (id, ·)
  | declaration d => d.dependsOn.map (d.id, ·)
  | declarations ds => ds.flatMap fun d => d.dependsOn.map (d.id, ·)

/-- The payloads a call gives, each with its entity. -/
def registers : Registration ι α → List (ι × α)
  | node id payload => [(id, payload)]
  | dependencies _ _ => []
  | declaration d => [(d.id, d.payload)]
  | declarations ds => ds.map fun d => (d.id, d.payload)

end Registration

/-- The distinct second parts of the pairs that begin with an identifier. -/
def targetsOf {ι : Type} [BEq ι] (ds : List (ι × ι)) (a : ι) : List ι :=
  ((ds.filter (·.1 == a)).map (·.2)).eraseDups

/-- The last value given to an identifier. -/
def latest {ι α : Type} [BEq ι] (ps : List (ι × α)) (a : ι) : Option α :=
  (ps.reverse.find? (·.1 == a)).map (·.2)

/-- Calls to a registry, in order. -/
abbrev History (ι α : Type) := List (Registration ι α)

namespace History

variable {ι α : Type}

/-- All identifiers that are mentioned. -/
def mentions (h : History ι α) : List ι := h.flatMap Registration.mentions

/-- All dependencies that are declared. -/
def declares (h : History ι α) : List (ι × ι) := h.flatMap Registration.declares

/-- All payloads that are given. -/
def registers (h : History ι α) : List (ι × α) := h.flatMap Registration.registers

theorem mentions_append (h k : History ι α) : (h ++ k).mentions = h.mentions ++ k.mentions :=
  List.flatMap_append

theorem declares_append (h k : History ι α) : (h ++ k).declares = h.declares ++ k.declares :=
  List.flatMap_append

theorem registers_append (h k : History ι α) : (h ++ k).registers = h.registers ++ k.registers :=
  List.flatMap_append

variable [BEq ι]

/-- The distinct identifiers, in order of first mention. -/
def identifiers (h : History ι α) : List ι := h.mentions.eraseDups

/-- The identifiers that are never given a payload. -/
def missing (h : History ι α) : List ι :=
  h.identifiers.filter fun a => !h.registers.any (·.1 == a)

/-- The registered identifiers, in order of first registration, and then all identifiers. -/
def starts (h : History ι α) : List ι := (h.registers.map (·.1)).eraseDups ++ h.identifiers

/-- The spelling in which an identifier was first mentioned. -/
def spelling (h : History ι α) (a : ι) : ι := (h.mentions.find? (· == a)).getD a

/-- The distinct dependencies of an identifier, in order of first declaration and spelled as they
were first mentioned, if the identifier is mentioned at all. -/
def dependencies (h : History ι α) (a : ι) : Option (List ι) :=
  if h.mentions.contains a then some ((targetsOf h.declares a).map h.spelling) else none

/-- The distinct identifiers that are given a payload, in order of first registration. -/
def roots (h : History ι α) : List ι := (h.registers.map (·.1)).eraseDups

/-- It is declared that `a` depends on `b`. -/
def DependsOn (h : History ι α) (a b : ι) : Prop := ∃ d ∈ h.declares, d.1 == a ∧ d.2 == b

/-- Declared dependencies lead from `a` to `b`, in zero or more steps. -/
def Reaches (h : History ι α) (a b : ι) : Prop := a == b ∨ TransGen h.DependsOn a b

/-- A cycle of declared dependencies is reached from `a`. -/
def LeadsToCycle (h : History ι α) (a : ι) : Prop :=
  ∃ c, h.Reaches a c ∧ TransGen h.DependsOn c c

/-- Some identifier depends on itself, in one or more steps. -/
def Cyclic (h : History ι α) : Prop := ∃ a, TransGen h.DependsOn a a

end History

end Precedence
