import Mathlib.Data.List.Basic
import Precedence.Json.Fragment

/-!
# Whole documents

A fragment without a flaw has one sequence of tokens without blanks, and assembling these tokens
gives the fragment back: in a container, where reading goes on behind it, and as a document of
its own, which is then complete.
-/

namespace Precedence.Json

namespace Fragment

mutual

/-- The tokens of a fragment that is written out to its end. -/
def tokens : Fragment → List Token
  | broken => [.flaw]
  | null => [.null]
  | bool value => [.bool value]
  | number numeral => [.number numeral]
  | text content => [.text content]
  | array items _ =>
    .openBracket :: ([Token.comma].intercalate (tokensOfItems items) ++ [.closeBracket])
  | object members _ =>
    .openBrace :: ([Token.comma].intercalate (tokensOfMembers members) ++ [.closeBrace])

/-- The tokens of each item. -/
def tokensOfItems : List Fragment → List (List Token)
  | [] => []
  | item :: items => tokens item :: tokensOfItems items

/-- The tokens of each member, its key and its value. -/
def tokensOfMembers : List (Option String × Fragment) → List (List Token)
  | [] => []
  | (key, item) :: members =>
    (.text key :: .colon :: tokens item) :: tokensOfMembers members

end

mutual

/-- How many containers are open at a time in a fragment. -/
def depth : Fragment → Nat
  | array items _ => depthOfItems items + 1
  | object members _ => depthOfMembers members + 1
  | _ => 0

/-- The depth of the deepest item. -/
def depthOfItems : List Fragment → Nat
  | [] => 0
  | item :: items => max (depth item) (depthOfItems items)

/-- The depth of the deepest value of a member. -/
def depthOfMembers : List (Option String × Fragment) → Nat
  | [] => 0
  | (_, item) :: members => max (depth item) (depthOfMembers members)

end

/-- The fragment has no flaw and all of its containers are closed. -/
inductive Whole : Fragment → Prop
  | null : Whole .null
  | bool (value : Bool) : Whole (.bool value)
  | number (numeral : Numeral) : Whole (.number numeral)
  | text (content : Option String) : Whole (.text content)
  | array {items : List Fragment} (h : ∀ f ∈ items, Whole f) : Whole (.array items true)
  | object {members : List (Option String × Fragment)} (h : ∀ m ∈ members, Whole m.2) :
    Whole (.object members true)

/-- The tokens of the items are taken item by item. -/
theorem tokensOfItems_eq_map (items : List Fragment) : tokensOfItems items = items.map tokens := by
  induction items with
  | nil => rfl
  | cons f fs ih => simp only [tokensOfItems, ih, List.map_cons]

/-- The tokens of the members are taken member by member. -/
theorem tokensOfMembers_eq_map (members : List (Option String × Fragment)) :
    tokensOfMembers members = members.map fun m => .text m.1 :: .colon :: tokens m.2 := by
  induction members with
  | nil => rfl
  | cons m ms ih => obtain ⟨key, f⟩ := m; simp only [tokensOfMembers, ih, List.map_cons]

/-- A bound on the depth of items bounds each of them. -/
theorem depthOfItems_le_iff {items : List Fragment} {n : Nat} :
    depthOfItems items ≤ n ↔ ∀ f ∈ items, f.depth ≤ n := by
  induction items with
  | nil => simp [depthOfItems]
  | cons f fs ih => rw [depthOfItems, Nat.max_le, ih, List.forall_mem_cons]

/-- A bound on the depth of members bounds each of their values. -/
theorem depthOfMembers_le_iff {members : List (Option String × Fragment)} {n : Nat} :
    depthOfMembers members ≤ n ↔ ∀ m ∈ members, m.2.depth ≤ n := by
  induction members with
  | nil => simp [depthOfMembers]
  | cons m ms ih => rw [depthOfMembers, Nat.max_le, ih, List.forall_mem_cons]

private theorem intercalate_cons {α : Type} (separator : α) (xs : List α) (xss : List (List α)) :
    [separator].intercalate (xs :: xss) = xs ++ xss.flatMap (separator :: ·) := by
  induction xss generalizing xs with
  | nil => rw [List.intercalate_singleton, List.flatMap_nil, List.append_nil]
  | cons ys yss ih =>
    rw [List.intercalate_cons_cons, ih ys, List.append_assoc, List.singleton_append,
      List.flatMap_cons, List.cons_append]

/-- What assembling makes of the tokens that follow a complete value inside `outer`. -/
def completed (value : Fragment) (outer : List Opened) (ts : List Token) : Fragment × Bool :=
  match resume value outer with
  | some (expecting, outer) => assemble expecting outer ts
  | none => (value, ts.isEmpty)

/-- The fragment is what its tokens are assembled into, inside any containers and whatever
follows. -/
def Assembles (f : Fragment) : Prop :=
  ∀ outer more, assemble .value outer (f.tokens ++ more) = completed f outer more

private theorem tokens_eq_cons {f : Fragment} (h : f.Whole) :
    ∃ t ts, f.tokens = t :: ts ∧ t ≠ .closeBracket := by
  cases h <;> exact ⟨_, _, rfl, nofun⟩

private theorem assemble_item {f : Fragment} (h : f.Whole) (outer : List Opened)
    (more : List Token) :
    assemble .item outer (f.tokens ++ more) =
      assemble .value (.array [] :: outer) (f.tokens ++ more) := by
  obtain ⟨t, ts, he, hne⟩ := tokens_eq_cons h
  rw [he, List.cons_append]
  cases t <;> first | rfl | exact absurd rfl hne

private theorem assemble_afterItem {items : List Fragment} (h : ∀ f ∈ items, f.Assembles)
    (seen : List Fragment) (outer : List Opened) (more : List Token) :
    assemble (.afterItem seen) outer
        ((items.map tokens).flatMap (.comma :: ·) ++ .closeBracket :: more) =
      completed (.array (seen.reverse ++ items) true) outer more := by
  induction items generalizing seen with
  | nil => rw [List.append_nil]; rfl
  | cons f fs ih =>
    obtain ⟨hf, hfs⟩ := List.forall_mem_cons.1 h
    simp only [List.map_cons, List.flatMap_cons, List.cons_append, List.append_assoc]
    change assemble .value (.array seen :: outer) _ = _
    rw [hf]
    change assemble (.afterItem (f :: seen)) outer _ = _
    rw [ih hfs, List.reverse_cons, List.append_assoc, List.singleton_append]

private theorem assemble_afterMember {members : List (Option String × Fragment)}
    (h : ∀ m ∈ members, m.2.Assembles) (seen : List (Option String × Fragment))
    (outer : List Opened) (more : List Token) :
    assemble (.afterMember seen) outer
        ((members.map fun m => .text m.1 :: .colon :: tokens m.2).flatMap (.comma :: ·) ++
          .closeBrace :: more) =
      completed (.object (seen.reverse ++ members) true) outer more := by
  induction members generalizing seen with
  | nil => rw [List.append_nil]; rfl
  | cons m ms ih =>
    obtain ⟨hm, hms⟩ := List.forall_mem_cons.1 h
    simp only [List.map_cons, List.flatMap_cons, List.cons_append, List.append_assoc]
    change assemble .value (.object seen m.1 :: outer) _ = _
    rw [hm]
    change assemble (.afterMember (m :: seen)) outer _ = _
    rw [ih hms, List.reverse_cons, List.append_assoc, List.singleton_append]

/-- Assembling the tokens of a whole fragment gives it back. -/
theorem Whole.assembles {f : Fragment} (h : f.Whole) : f.Assembles := by
  induction h with
  | null | bool _ | number _ | text _ => intro outer more; rfl
  | @array items hw ih =>
    intro outer more
    rw [tokens, tokensOfItems_eq_map, List.cons_append, List.append_assoc, List.singleton_append]
    change assemble .item outer _ = _
    match items, hw, ih with
    | [], _, _ => rfl
    | f :: fs, hw, ih =>
      obtain ⟨hf, hfs⟩ := List.forall_mem_cons.1 ih
      rw [List.map_cons, intercalate_cons, List.append_assoc,
        assemble_item (hw f List.mem_cons_self), hf]
      exact assemble_afterItem hfs [f] outer more
  | @object members hw ih =>
    intro outer more
    rw [tokens, tokensOfMembers_eq_map, List.cons_append, List.append_assoc,
      List.singleton_append]
    change assemble .member outer _ = _
    match members, ih with
    | [], _ => rfl
    | m :: ms, ih =>
      obtain ⟨hm, hms⟩ := List.forall_mem_cons.1 ih
      simp only [List.map_cons, intercalate_cons, List.cons_append, List.append_assoc]
      change assemble .value (.object [] m.1 :: outer) _ = _
      rw [hm]
      exact assemble_afterMember hms [m] outer more

/-- As a document of its own, a whole fragment is assembled completely. -/
theorem Whole.assemble_tokens {f : Fragment} (h : f.Whole) :
    assemble .value [] f.tokens = (f, true) := by
  have := h.assembles [] []
  rwa [List.append_nil] at this

end Fragment

end Precedence.Json
