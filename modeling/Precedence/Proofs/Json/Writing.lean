import Mathlib.Tactic.Choose
import Precedence.Json.Format
import Precedence.Proofs.Json.Assembly
import Precedence.Proofs.Json.Scanning

/-!
# What is written is read back

A format writes a value as a fragment: the text of the value scans to the tokens of the fragment,
and the fragment is read as the value. The text as a document of its own is then read as the
value, as long as it does not nest too deep for a reader.
-/

namespace Precedence.Json

/-- How many containers are open at a time in the document of a text. -/
def nesting (text : String) : Nat := (Fragment.ofString text).1.depth

private theorem scans_printArray {γ : Type} {xs : List γ} {text : γ → String} {f : γ → Fragment}
    (h : ∀ x ∈ xs, Token.Scans (text x).toList (f x).tokens) :
    Token.Scans (printArray (xs.map text)).toList (Fragment.array (xs.map f) true).tokens := by
  rw [printArray, Fragment.tokens, Fragment.tokensOfItems_eq_map, String.toList_append,
    String.toList_append, String.toList_intercalate, List.map_map, List.map_map]
  exact ((Token.Scans.intercalate h).append_sign .closeBracket).cons_sign .openBracket

private theorem scans_member {key text : String} {ts : List Token}
    (h : Token.Scans text.toList ts) :
    Token.Scans (printText key ++ ":" ++ text).toList (.text (some key) :: .colon :: ts) := by
  rw [String.toList_append, String.toList_append, List.append_assoc]
  exact (Token.scans_printText key).append (h.cons_sign .colon) fun rest _ => Token.Sign.colon.ends _

/-- An object of keys and texts is printed as the object of the keys and the fragments. -/
theorem scans_printObject {γ : Type} (ms : List (String × γ)) (text : γ → String)
    (f : γ → Fragment) (h : ∀ m ∈ ms, Token.Scans (text m.2).toList (f m.2).tokens) :
    Token.Scans (printObject (ms.map fun m => (m.1, text m.2))).toList
      (Fragment.object (ms.map fun m => (some m.1, f m.2)) true).tokens := by
  have hm : Token.Scans
      ([','].intercalate (ms.map fun m => (printText m.1 ++ ":" ++ text m.2).toList))
      ([Token.comma].intercalate (ms.map fun m => .text (some m.1) :: .colon :: (f m.2).tokens)) :=
    .intercalate fun m hm => scans_member (h m hm)
  rw [printObject, Fragment.tokens, Fragment.tokensOfMembers_eq_map, String.toList_append,
    String.toList_append, String.toList_intercalate, List.map_map, List.map_map, List.map_map]
  exact (hm.append_sign .closeBrace).cons_sign .openBrace

namespace Format

variable {α : Type} [Format α]

/-- A value is written as the fragment: its text is the text of the fragment, and the fragment is
read as the value wherever as many containers may be opened as it has. -/
structure Writes (a : α) (f : Fragment) : Prop where
  whole : f.Whole
  scans : Token.Scans (print a).toList f.tokens
  reads : ∀ depth, f.depth ≤ depth → read depth f = .ok a

/-- What can be read behind the opening of a container can be read wherever the container may be
opened. -/
theorem reads_of_succ {a : α} {f : Fragment} {n : Nat} (hf : f.depth = n + 1)
    (h : ∀ depth, n ≤ depth → read (depth + 1) f = .ok a) (depth : Nat) (hd : f.depth ≤ depth) :
    read depth f = .ok a := by
  obtain ⟨k, rfl⟩ : ∃ k, depth = k + 1 := ⟨depth - 1, by omega⟩
  exact h k (by omega)

/-- The text of a value is a complete document. -/
theorem Writes.ofString_print {a : α} {f : Fragment} (h : Writes a f) :
    Fragment.ofString (print a) = (f, true) := by
  have hs := h.scans [] (fun _ h => nomatch h)
  rw [List.append_nil, Token.scan_nil, List.append_nil] at hs
  rw [Fragment.ofString, hs, h.whole.assemble_tokens]

/-- The text of a value that is not nested too deep is read as the value. -/
theorem Writes.parse_print {a : α} {f : Fragment} (h : Writes a f)
    (hd : nesting (print a) ≤ depthLimit) : parse (print a) = .ok a := by
  have he := h.ofString_print
  rw [nesting, he] at hd
  rw [parse, he]
  dsimp only
  rw [h.reads depthLimit hd]
  rfl

theorem writes_text (s : String) : Writes s (.text (some s)) where
  whole := .text _
  scans := Token.scans_printText s
  reads _ _ := rfl

theorem writes_unit : Writes () .null where
  whole := .null
  scans := Token.scans_null
  reads _ _ := rfl

/-- A whole number of 64 bits is written in decimal. -/
theorem writes_integer (n : Int64) : Writes n (.number (.ofInt n.toInt)) where
  whole := .number _
  scans := Token.scans_toString_int n.toInt
  reads depth _ := by
    have high : n.toInt < Int.pow 2 63 := n.toInt_lt
    have hlt : n.toInt < Int.pow 2 64 := Int.lt_trans high (by decide)
    have hv := Numeral.value_ofInt n.le_toInt hlt
    simp only [read, hv, Int64.ofInt_toInt]
    exact if_pos high

/-- The absent value of an optional type is written as `null`. -/
theorem writes_none : Writes (none : Option α) .null where
  whole := .null
  scans := Token.scans_null
  reads _ _ := rfl

/-- A present value of an optional type is written like the value, unless that is `null`. -/
theorem Writes.present {a : α} {f : Fragment} (h : Writes a f) (hn : f ≠ .null) :
    Writes (some a) f where
  whole := h.whole
  scans := h.scans
  reads depth hd := by
    have hr := h.reads depth hd
    cases f with
    | null => exact absurd rfl hn
    | _ => exact congrArg (Except.map some) hr

private theorem readItems_map {depth : Nat} {as : List α} {f : α → Fragment}
    (h : ∀ a ∈ as, read depth (f a) = .ok a) : readItems depth (as.map f) = .ok as := by
  induction as with
  | nil => rfl
  | cons a as ih =>
    obtain ⟨ha, has⟩ := List.forall_mem_cons.1 h
    rw [List.map_cons, readItems, ha, ih has]
    rfl

/-- A list is written as the array of what its items are written as. -/
theorem Writes.list {as : List α} {f : α → Fragment} (h : ∀ a ∈ as, Writes a (f a)) :
    Writes as (.array (as.map f) true) where
  whole := .array (List.forall_mem_map.2 fun a ha => (h a ha).whole)
  scans := scans_printArray fun a ha => (h a ha).scans
  reads := reads_of_succ rfl fun depth hd => by
    have hi := Fragment.depthOfItems_le_iff.1 hd
    have hr := readItems_map fun a ha => (h a ha).reads depth (hi _ (List.mem_map_of_mem ha))
    change (readItems depth (as.map f) >>= fun values => Except.ok values) = _
    rw [hr]
    rfl

end Format

namespace Value

/-- The value has no floating-point number, its numbers fit 64 bits, and the keys of its objects
ascend. -/
inductive Plain : Value → Prop
  | null : Plain .null
  | bool (value : Bool) : Plain (.bool value)
  | integer {n : Int} (low : -Int.pow 2 63 ≤ n) (high : n < Int.pow 2 64) :
    Plain (.number (.integer n))
  | text (value : String) : Plain (.text value)
  | array {items : List Value} (h : ∀ v ∈ items, Plain v) : Plain (.array items)
  | object {members : List (String × Value)} (keys : members.Pairwise (·.1 < ·.1))
    (h : ∀ m ∈ members, Plain m.2) : Plain (.object members)

private theorem insert_of_forall_lt {key : String} {value : Value} {members : List (String × Value)}
    (h : ∀ m ∈ members, m.1 < key) : insert key value members = members ++ [(key, value)] := by
  induction members with
  | nil => rfl
  | cons m ms ih =>
    obtain ⟨hm, hms⟩ := List.forall_mem_cons.1 h
    have hlt : ¬ key < m.1 := String.lt_asymm hm
    have hne : key ≠ m.1 := fun he => String.lt_irrefl _ (he ▸ hm)
    rw [insert, if_neg hlt, if_neg hne, ih hms, List.cons_append]

private theorem foldl_insert_of_pairwise {seen members : List (String × Value)}
    (h : (seen ++ members).Pairwise (·.1 < ·.1)) :
    members.foldl (fun ms m => insert m.1 m.2 ms) seen = seen ++ members := by
  induction members generalizing seen with
  | nil => rw [List.append_nil]; rfl
  | cons m ms ih =>
    have hlt : ∀ s ∈ seen, s.1 < m.1 := fun s hs =>
      (List.pairwise_append.1 h).2.2 s hs m List.mem_cons_self
    rw [List.append_cons] at h ⊢
    rw [List.foldl_cons, insert_of_forall_lt hlt]
    exact ih h

private theorem ofMembers_of_pairwise {members : List (String × Value)}
    (h : members.Pairwise (·.1 < ·.1)) : ofMembers members = object members := by
  rw [ofMembers, foldl_insert_of_pairwise (by rwa [List.nil_append]), List.nil_append]

private theorem printItems_eq_map (items : List Value) : printItems items = items.map print := by
  induction items with
  | nil => rfl
  | cons v vs ih => rw [printItems, ih, List.map_cons]

private theorem printMembers_eq_map (members : List (String × Value)) :
    printMembers members = members.map fun m => (m.1, print m.2) := by
  induction members with
  | nil => rfl
  | cons m ms ih => rw [printMembers, ih, List.map_cons]

private theorem itemsOf?_map {depth : Nat} {items : List Value} {f : Value → Fragment}
    (h : ∀ v ∈ items, ofFragment? depth (f v) = some v) :
    itemsOf? depth (items.map f) = some items := by
  induction items with
  | nil => rfl
  | cons v vs ih =>
    obtain ⟨hv, hvs⟩ := List.forall_mem_cons.1 h
    rw [List.map_cons, itemsOf?, hv, ih hvs]
    rfl

private theorem membersOf?_map {depth : Nat} {members : List (String × Value)}
    {f : Value → Fragment}
    (h : ∀ m ∈ members, ofFragment? depth (f m.2) = some m.2) :
    membersOf? depth (members.map fun m => (some m.1, f m.2)) = some members := by
  induction members with
  | nil => rfl
  | cons m ms ih =>
    obtain ⟨hm, hms⟩ := List.forall_mem_cons.1 h
    rw [List.map_cons, membersOf?, hm, ih hms]
    rfl

end Value

namespace Format

/-- A value is read from a fragment that has it as its value. -/
theorem read_value {v : Value} {f : Fragment} {depth : Nat} :
    read depth f = .ok v ↔ Value.ofFragment? depth f = some v := by
  simp only [read]
  split
  next h => rw [h, Except.ok.injEq, Option.some.injEq]
  next h => simp [h]

/-- An array is written as the array of what its items are written as. -/
theorem Writes.array {items : List Value} {f : Value → Fragment}
    (h : ∀ v ∈ items, Writes v (f v)) :
    Writes (Value.array items) (.array (items.map f) true) where
  whole := .array (List.forall_mem_map.2 fun v hv => (h v hv).whole)
  scans := by
    change Token.Scans (printArray (Value.printItems items)).toList _
    rw [Value.printItems_eq_map]
    exact scans_printArray fun v hv => (h v hv).scans
  reads := reads_of_succ rfl fun depth hd => by
    have hi := Fragment.depthOfItems_le_iff.1 hd
    have hv := Value.itemsOf?_map fun v hv =>
      read_value.1 ((h v hv).reads depth (hi _ (List.mem_map_of_mem hv)))
    rw [read_value]
    change (Value.itemsOf? depth (items.map f)).map Value.array = _
    rw [hv]
    rfl

/-- An object whose keys ascend is written as the object of what its values are written as. -/
theorem Writes.object {members : List (String × Value)} {f : Value → Fragment}
    (keys : members.Pairwise (·.1 < ·.1)) (h : ∀ m ∈ members, Writes m.2 (f m.2)) :
    Writes (Value.object members) (.object (members.map fun m => (some m.1, f m.2)) true) where
  whole := .object (List.forall_mem_map.2 fun m hm => (h m hm).whole)
  scans := by
    change Token.Scans (printObject (Value.printMembers members)).toList _
    rw [Value.printMembers_eq_map]
    exact scans_printObject members Value.print f fun m hm => (h m hm).scans
  reads := reads_of_succ rfl fun depth hd => by
    have hi := Fragment.depthOfMembers_le_iff.1 hd
    have hv := Value.membersOf?_map fun m hm =>
      read_value.1 ((h m hm).reads depth (hi _ (List.mem_map_of_mem hm)))
    rw [read_value]
    change (Value.membersOf? depth (members.map fun m => (some m.1, f m.2))).map
      Value.ofMembers = _
    rw [hv, Option.map_some, Value.ofMembers_of_pairwise keys]

/-- A value without floating-point numbers can be written. -/
theorem exists_writes_value {v : Value} (h : v.Plain) : ∃ f, Writes v f := by
  induction h with
  | null => exact ⟨.null, .null, Token.scans_null, fun _ _ => rfl⟩
  | bool b =>
    refine ⟨.bool b, .bool b, ?_, fun _ _ => rfl⟩
    have := Token.scans_toString_bool b
    cases b <;> exact this
  | @integer n low high =>
    refine ⟨.number (.ofInt n), .number _, Token.scans_toString_int n, fun depth _ => ?_⟩
    rw [read_value, Value.ofFragment?, Numeral.value_ofInt low high]
    rfl
  | text s => exact ⟨.text (some s), .text _, Token.scans_printText s, fun _ _ => rfl⟩
  | @array items _ ih =>
    choose! f hf using ih
    exact ⟨_, .array hf⟩
  | @object members keys _ ih =>
    have ih : ∀ v ∈ members.map Prod.snd, ∃ f, Writes v f := List.forall_mem_map.2 ih
    choose! f hf using ih
    exact ⟨_, .object keys fun m hm => hf _ (List.mem_map_of_mem hm)⟩

end Format

end Precedence.Json
