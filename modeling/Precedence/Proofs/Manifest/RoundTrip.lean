import Mathlib
import Precedence.Manifest.Declaration
import Precedence.Manifest.Names
import Precedence.Proofs.Json.Writing
import Precedence.Resolution.Basic

/-!
# Declarations are read back

A declaration is written as an object of its three members. Reading its text, or the text of a
list of declarations, gives back what was written. So does reading the name of a state or kind.
-/

namespace Precedence.Manifest

open Json Json.Format

/-- The types of the identifiers in manifests. -/
inductive IsIdentifier : (ι : Type) → [Format ι] → Prop
  | text : IsIdentifier String
  | integer : IsIdentifier Int64

/-- The types of the payloads in manifests, and which of their values have no floating-point
numbers. -/
inductive IsPayload : (α : Type) → [Format α] → (α → Prop) → Prop
  | value : IsPayload Value Value.Plain
  | integer : IsPayload Int64 fun _ => True
  | optionalInteger : IsPayload (Option Int64) fun _ => True
  | text : IsPayload String fun _ => True
  | unit : IsPayload Unit fun _ => True

private theorem IsIdentifier.exists_writes {ι : Type} [Format ι] (h : IsIdentifier ι) (i : ι) :
    ∃ f, Writes i f := by
  cases h with
  | text => exact ⟨_, writes_text i⟩
  | integer => exact ⟨_, writes_integer i⟩

private theorem IsPayload.exists_writes {α : Type} [Format α] {plain : α → Prop}
    (h : IsPayload α plain)
    {a : α} (ha : plain a) : ∃ f, Writes a f := by
  cases h with
  | value => exact exists_writes_value ha
  | integer => exact ⟨_, writes_integer a⟩
  | optionalInteger =>
    cases a with
    | none => exact ⟨_, writes_none⟩
    | some n => exact ⟨_, (writes_integer n).present nofun⟩
  | text => exact ⟨_, writes_text a⟩
  | unit => exact ⟨_, writes_unit⟩

variable {ι α : Type} [Format ι] [Format α]

/-- A declaration is written as the object of what its members are written as. -/
theorem writes_declaration {d : Precedence.Declaration ι α} {i p ds : Fragment} (hi : Writes d.id i)
    (hp : Writes d.payload p) (hd : Writes d.dependsOn ds) :
    Writes d (.object [(some "id", i), (some "data", p), (some "depends_on", ds)] true) where
  whole := .object (by simp [hi.whole, hp.whole, hd.whole])
  scans := scans_printObject [("id", (print d.id, i)), ("data", (print d.payload, p)),
    ("depends_on", (print d.dependsOn, ds))] Prod.fst Prod.snd
    (by simp [hi.scans, hp.scans, hd.scans])
  reads := reads_of_succ rfl fun depth h => by
    have hle := Fragment.depthOfMembers_le_iff.1 h
    simp only [List.forall_mem_cons] at hle
    obtain ⟨hi', hp', hd', -⟩ := hle
    have hr : Declaration.readMembers depth {}
        [(some "id", i), (some "data", p), (some "depends_on", ds)] =
        .ok (⟨some d.id, some d.payload, some d.dependsOn⟩ : Draft ι α) := by
      simp [Declaration.readMembers, Declaration.readMember, hi.reads depth hi',
        hp.reads depth hp', hd.reads depth hd', bind, Except.bind, pure, Except.pure]
    change (Declaration.readMembers depth {} _ >>= Declaration.ofDraft) = _
    rw [hr]
    rfl

private theorem exists_writes_declaration {plain : α → Prop} (hι : IsIdentifier ι)
    (hα : IsPayload α plain)
    {d : Precedence.Declaration ι α} (h : plain d.payload) : ∃ f, Writes d f := by
  obtain ⟨i, hi⟩ := hι.exists_writes d.id
  obtain ⟨p, hp⟩ := hα.exists_writes h
  choose f hf using hι.exists_writes
  exact ⟨_, writes_declaration hi hp (.list fun i _ => hf i)⟩

/-- What is written is read back. A declaration whose payload has no floating-point numbers and
whose text is not nested too deep is read from its text as it was, and so is a list of such
declarations, which therefore resolves as it did. -/
theorem parse_print_declarations [BEq ι] [Hashable ι] {plain : α → Prop} (hι : IsIdentifier ι)
    (hα : IsPayload α plain) :
    (∀ d : Precedence.Declaration ι α, plain d.payload → nesting (print d) ≤ depthLimit →
      parse (print d) = .ok d) ∧
    ∀ ds : List (Precedence.Declaration ι α), (∀ d ∈ ds, plain d.payload) →
      nesting (print ds) ≤ depthLimit →
      parse (print ds) = .ok ds ∧
        (parse (print ds)).map (fun read => (Registry.ofDeclarations read).resolve) =
          .ok (Registry.ofDeclarations ds).resolve := by
  refine ⟨fun d hd hn => ?_, fun ds hds hn => ?_⟩
  · obtain ⟨f, hf⟩ := exists_writes_declaration hι hα hd
    exact hf.parse_print hn
  · have hw : ∀ d ∈ ds, ∃ f, Writes d f := fun d hd => exists_writes_declaration hι hα (hds d hd)
    choose! f hf using hw
    have hp := (Writes.list hf).parse_print hn
    exact ⟨hp, by rw [hp]; rfl⟩

/-- A declaration with escapes of every kind and a payload that nests. -/
def escapedDeclaration : Precedence.Declaration String Value where
  id := "\"\\\n\x01"
  payload := .object [("", .array [.null, .bool true]),
    ("é", .number (.integer (-9223372036854775808)))]
  dependsOn := ["b"]

/-- Declarations of which one is without a payload and depends on the other twice. -/
def numberedDeclarations : List (Precedence.Declaration Int64 (Option Int64)) :=
  [⟨-3, none, [5, 5]⟩, ⟨5, some 0, []⟩]

/-- A declaration with escapes and a list of declarations with numbers are read back. -/
theorem parse_print_declarations_escaped :
    (Value.Plain escapedDeclaration.payload ∧ nesting (print escapedDeclaration) ≤ depthLimit ∧
      parse (print escapedDeclaration) = .ok escapedDeclaration) ∧
    nesting (print numberedDeclarations) ≤ depthLimit ∧
      parse (print numberedDeclarations) = .ok numberedDeclarations := by
  have hp : Value.Plain escapedDeclaration.payload := by
    refine .object (by decide) ?_
    simp only [List.forall_mem_cons]
    refine ⟨.array ?_, .integer (by decide) (by decide), by simp⟩
    simp only [List.forall_mem_cons]
    exact ⟨.null, .bool true, by simp⟩
  have he : nesting (print escapedDeclaration) ≤ depthLimit := by cbv
  have hn : nesting (print numberedDeclarations) ≤ depthLimit := by cbv
  exact ⟨⟨hp, he, (parse_print_declarations .text .value).1 _ hp he⟩, hn,
    ((parse_print_declarations .integer .optionalInteger).2 _ (fun _ _ => trivial) hn).1⟩

/-! ### Names -/

section
variable {β : Type} {all : List β} {name : β → String}

private theorem named_name (hall : ∀ b, b ∈ all) (hname : Function.Injective name)
    (b : β) : named all name (name b) = .ok b := by
  unfold named
  cases hfind : all.find? fun c => name c == name b with
  | some c =>
    have hc : name c = name b := by simpa using List.find?_some hfind
    rw [hname hc]
  | none => exact absurd (List.find?_eq_none.mp hfind b (hall b)) (by simp)

/-- Values that are written by name are read back, if their names tell them apart. -/
theorem parse_print_of_name (hall : ∀ b, b ∈ all) (hname : Function.Injective name) (b : β) :
    @parse β (ofNames all name) (@print β (ofNames all name) b) = .ok b := by
  let format := ofNames all name
  have htext : Fragment.ofString (print b) = (.text (some (name b)), true) :=
    (writes_text (name b)).ofString_print
  have hread : Format.read depthLimit (.text (some (name b))) = .ok b := named_name hall hname b
  rw [parse, htext]
  dsimp only
  rw [hread]
  rfl

end

/-- States are read back. -/
theorem parse_print_state (s : NodeState) : parse (print s) = .ok s :=
  parse_print_of_name NodeState.mem_all (fun _ _ => NodeState.name_injective) s

/-- Kinds are read back. -/
theorem parse_print_kind (k : EdgeKind) : parse (print k) = .ok k :=
  parse_print_of_name EdgeKind.mem_all (fun _ _ => EdgeKind.name_injective) k

end Precedence.Manifest
