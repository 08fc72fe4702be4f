import Mathlib.Data.List.Basic
import Precedence.Json.Printer

/-!
# What printed texts scan to

Printed strings and whole numbers are scanned back to what they mean. A string ends by itself; a
number ends where no numeral can go on, as it does before every sign that may follow a value.
-/

namespace Precedence.Json

namespace Piece

/-- The part of a string stands for the character. -/
def Means (p : Piece) (c : Char) : Prop := ∀ ps, join (p :: ps) = (join ps).map (c :: ·)

/-- Reading from here takes the part `p` and goes on with the rest. -/
def Takes (cs : List Char) (p : Piece) : Prop :=
  ∀ rest, scan? (cs ++ rest) = do
    let (pieces, rest) ← scan? rest
    return (p :: pieces, rest)

private theorem char_means (c : Char) : (char c).Means c := fun _ => by rw [join]

private theorem unit_means {c : Char} (h : c.toNat < 0xd800) : (unit c.toNat).Means c := by
  have hh : isHigh c.toNat = false := Bool.and_eq_false_iff.2 (.inl (decide_eq_false (by omega)))
  have hl : isLow c.toNat = false := Bool.and_eq_false_iff.2 (.inl (decide_eq_false (by omega)))
  intro ps
  -- Half a pair is looked for in the next part too, so the parts are told apart here.
  match ps with
  | [] | .char _ :: _ | .unit _ :: _ => simp [join, hh, hl]

private theorem takes_self {c : Char} (hq : c ≠ '"') (hb : c ≠ '\\') (hc : ¬ c.toNat < 0x20) :
    Takes [c] (char c) := by
  intro rest
  rw [List.singleton_append, scan?, if_neg hc]
  · exact hq
  · exact fun _ _ _ _ _ h _ => hb h
  · exact fun _ _ h _ => hb h

private theorem unit?_control :
    ∀ n < 0x20, unit? '0' '0' (n / 16).digitChar (n % 16).digitChar = some (unit n) := by
  decide

private theorem exists_takes_escaped (c : Char) : ∃ p, Takes (escaped c) p ∧ p.Means c := by
  unfold escaped
  split
  case h_8 hq hb _ _ _ _ _ =>
    split
    next hc =>
      refine ⟨unit c.toNat, fun rest => ?_, unit_means (by omega)⟩
      simp [scan?, unit?_control _ hc]
    next hc => exact ⟨char c, takes_self hq hb hc, char_means c⟩
  all_goals exact ⟨char _, fun rest => by simp [scan?, named?], char_means _⟩

private theorem scan?_flatMap_escaped (cs rest : List Char) :
    ∃ ps, scan? (cs.flatMap escaped ++ '"' :: rest) = some (ps, rest) ∧ join ps = some cs := by
  induction cs with
  | nil => exact ⟨[], by simp [scan?], by rw [join]⟩
  | cons c cs ih =>
    obtain ⟨ps, hs, hj⟩ := ih
    obtain ⟨p, ht, hm⟩ := exists_takes_escaped c
    refine ⟨p :: ps, ?_, by rw [hm, hj]; rfl⟩
    rw [List.flatMap_cons, List.append_assoc, ht, hs]
    rfl

end Piece

namespace Numeral

/-- No numeral that stands before the text goes on into it. -/
def Ends (rest : List Char) : Prop :=
  ∀ c ∈ rest.head?, c.isDigit = false ∧ c ≠ '.' ∧ c ≠ 'e' ∧ c ≠ 'E'

/-- The numeral that a whole number is printed as. -/
def ofInt (n : Int) : Numeral :=
  ⟨decide (n < 0), (Nat.toDigits 10 n.natAbs).map digitValue, none, none⟩

private theorem digits_append {cs rest : List Char} (h : ∀ c ∈ cs, c.isDigit = true)
    (hr : Ends rest) :
    digits (cs ++ rest) = (cs.map digitValue, rest) := by
  have ht : rest.takeWhile Char.isDigit = [] ∧ rest.dropWhile Char.isDigit = rest := by
    cases rest with
    | nil => exact ⟨rfl, rfl⟩
    | cons c rest => simp [(hr c rfl).1]
  simp only [digits]
  rw [List.takeWhile_append_of_pos h, List.dropWhile_append_of_pos h, ht.1, ht.2, List.append_nil]

private theorem fraction?_of_ends {rest : List Char} (h : Ends rest) :
    fraction? rest = some (none, rest) := by
  unfold fraction?
  split
  next => exact absurd rfl (h _ rfl).2.1
  next => rfl

private theorem exponent?_of_ends {rest : List Char} (h : Ends rest) :
    exponent? rest = some (none, rest) := by
  unfold exponent?
  split
  next => rfl
  next c rest =>
    obtain ⟨-, -, he, hE⟩ := h c rfl
    simp [he, hE]

private theorem toDigits_eq_cons {n : Nat} (h : 0 < n) :
    ∃ c cs, Nat.toDigits 10 n = c :: cs ∧ digitValue c ≠ 0 := by
  induction n using Nat.strongRecOn with
  | ind n ih =>
    rw [Nat.toDigits_eq_if (by decide)]
    split
    next hn =>
      refine ⟨_, [], rfl, ?_⟩
      rw [digitValue, Nat.toNat_digitChar_of_lt_ten hn]
      change 48 + n - 48 ≠ 0
      omega
    next hn =>
      obtain ⟨c, cs, he, hc⟩ := ih (n / 10) (by omega) (by omega)
      exact ⟨c, cs ++ [(n % 10).digitChar], by rw [he, List.cons_append], hc⟩

private theorem unsigned?_toDigits (negative : Bool) (n : Nat) {rest : List Char} (hr : Ends rest) :
    unsigned? negative (Nat.toDigits 10 n ++ rest) =
      some (⟨negative, (Nat.toDigits 10 n).map digitValue, none, none⟩, rest) := by
  have hd : ∀ c ∈ Nat.toDigits 10 n, c.isDigit = true := fun c hc =>
    Nat.isDigit_of_mem_toDigits (by decide) (by decide) hc
  unfold unsigned?
  rw [digits_append hd hr]
  rcases Nat.eq_zero_or_pos n with rfl | hn
  · simp [digitValue, fraction?_of_ends hr, exponent?_of_ends hr]
  · obtain ⟨c, cs, he, hc⟩ := toDigits_eq_cons hn
    rw [he, List.map_cons]
    split
    next h => cases h
    next h =>
      obtain ⟨h0, -⟩ := List.cons.inj (Prod.mk.inj h).1
      exact absurd h0 hc
    next h =>
      cases h
      simp [fraction?_of_ends hr, exponent?_of_ends hr]

private theorem toList_toString (n : Int) :
    (toString n).toList =
      if n < 0 then '-' :: Nat.toDigits 10 n.natAbs else Nat.toDigits 10 n.natAbs := by
  cases n with
  | ofNat n => exact String.toList_ofList
  | negSucc n =>
    change ("-" ++ String.ofList (Nat.toDigits 10 (n + 1))).toList = _
    rw [String.toList_append, if_pos (Int.negSucc_lt_zero n)]
    exact congrArg ('-' :: ·) String.toList_ofList

private theorem exists_toDigits_eq_cons (n : Nat) :
    ∃ c cs, Nat.toDigits 10 n = c :: cs ∧ c.isDigit = true := by
  obtain ⟨c, cs, he⟩ := List.exists_cons_of_ne_nil (Nat.toDigits_ne_nil (n := n) (b := 10))
  exact ⟨c, cs, he, Nat.isDigit_of_mem_toDigits (by decide) (by decide) (he ▸ List.mem_cons_self)⟩

private theorem toString_eq_cons (n : Int) :
    ∃ c cs, (toString n).toList = c :: cs ∧ (c = '-' ∨ c.isDigit = true) := by
  rw [toList_toString]
  split
  next => exact ⟨_, _, rfl, .inl rfl⟩
  next =>
    obtain ⟨c, cs, he, hc⟩ := exists_toDigits_eq_cons n.natAbs
    exact ⟨c, cs, he, .inr hc⟩

private theorem scan?_toString (n : Int) {rest : List Char} (hr : Ends rest) :
    scan? ((toString n).toList ++ rest) = some (ofInt n, rest) := by
  have hu := unsigned?_toDigits (decide (n < 0)) n.natAbs hr
  rw [toList_toString]
  split
  next hn =>
    rw [decide_eq_true hn] at hu
    rw [ofInt, decide_eq_true hn]
    exact hu
  next hn =>
    rw [decide_eq_false hn] at hu
    rw [ofInt, decide_eq_false hn, ← hu]
    obtain ⟨c, cs, he, hc⟩ := exists_toDigits_eq_cons n.natAbs
    rw [he, List.cons_append, scan?]
    intro cs' h
    rw [(List.cons.inj h).1] at hc
    exact absurd hc (by decide)

private theorem ofDigits_toDigits (n : Nat) :
    ofDigits ((Nat.toDigits 10 n).map digitValue) = n := by
  have h := Nat.ofDigitChars_ten_toDigits (n := n)
  rw [Nat.ofDigitChars_eq_foldl] at h
  rw [ofDigits, List.foldl_map]
  simpa only [digitValue, Nat.mul_comm] using h

private theorem le_foldl_digits (n : Nat) (ds : List Nat) :
    n ≤ ds.foldl (fun n digit => n * 10 + digit) n := by
  induction ds generalizing n with
  | nil => exact Nat.le_refl n
  | cons d ds ih => exact Nat.le_trans (by omega) (ih (n * 10 + d))

private theorem gather_of_lt {ds : List Nat} {n : Nat}
    (h : ds.foldl (fun n digit => n * 10 + digit) n < Nat.pow 2 64) :
    gather n ds = (ds.foldl (fun n digit => n * 10 + digit) n, []) := by
  induction ds generalizing n with
  | nil => rfl
  | cons d ds ih =>
    rw [gather, if_pos (Nat.lt_of_le_of_lt (le_foldl_digits _ ds) h), ih h]
    rfl

/-- A whole number that has a value is the value of the numeral that it is printed as. -/
theorem value_ofInt {n : Int} (low : -Int.pow 2 63 ≤ n) (high : n < Int.pow 2 64) :
    (ofInt n).value = some (.integer n) := by
  have h63 : Int.pow 2 63 = 9223372036854775808 := rfl
  have h64 : Int.pow 2 64 = 18446744073709551616 := rfl
  have hw : ofDigits (ofInt n).whole = n.natAbs := ofDigits_toDigits n.natAbs
  have hlt : n.natAbs < Nat.pow 2 64 := by simp only [Nat.pow_eq]; omega
  have hg : gather 0 (ofInt n).whole = (n.natAbs, []) := by
    rw [← hw] at hlt ⊢
    exact gather_of_lt hlt
  unfold value
  rw [hg]
  simp only [ofInt]
  rcases Int.lt_or_le n 0 with hn | hn
  · have hle : ¬ (n.natAbs = 0 ∨ Nat.pow 2 63 < n.natAbs) := by simp only [Nat.pow_eq]; omega
    have : -(n.natAbs : Int) = n := by omega
    simp only [hn, decide_true, Bool.not_true, Bool.false_eq_true, ↓reduceIte, Bool.or_eq_true,
      decide_eq_true_eq, hle, this]
  · have : (n.natAbs : Int) = n := by omega
    simp only [Int.not_lt.2 hn, decide_false, Bool.not_false, ↓reduceIte, this]

end Numeral

namespace Token

open Numeral (Ends)

/-- A character that is a token by itself. -/
inductive Sign : Char → Token → Prop
  | openBracket : Sign '[' .openBracket
  | closeBracket : Sign ']' .closeBracket
  | openBrace : Sign '\x7b' .openBrace
  | closeBrace : Sign '\x7d' .closeBrace
  | comma : Sign ',' .comma
  | colon : Sign ':' .colon

/-- The text scans to the tokens and no further, whatever follows that ends a numeral. -/
def Scans (cs : List Char) (ts : List Token) : Prop :=
  ∀ rest, Ends rest → scan (cs ++ rest) = ts ++ scan rest

/-- A sign ends every numeral before it. -/
theorem Sign.ends {c : Char} {t : Token} (h : Sign c t) (cs : List Char) : Ends (c :: cs) := by
  intro d hd
  cases hd
  cases h <;> decide

private theorem Sign.scan {c : Char} {t : Token} (h : Sign c t) (cs : List Char) :
    scan (c :: cs) = t :: scan cs := by
  cases h <;> exact scan_of_next? (by decide) rfl

/-- Two texts scan one after the other if the second ends a numeral before it. -/
theorem Scans.append {cs cs' : List Char} {ts ts' : List Token} (h : Scans cs ts)
    (h' : Scans cs' ts') (he : ∀ rest, Ends rest → Ends (cs' ++ rest)) :
    Scans (cs ++ cs') (ts ++ ts') := by
  intro rest hr
  rw [List.append_assoc, h _ (he rest hr), h' rest hr, List.append_assoc]

/-- A text scans with a sign after it. -/
theorem Scans.append_sign {cs : List Char} {ts : List Token} {c : Char} {t : Token}
    (h : Scans cs ts) (hs : Sign c t) : Scans (cs ++ [c]) (ts ++ [t]) :=
  h.append (fun rest _ => hs.scan rest) fun rest _ => hs.ends rest

/-- A text scans with a sign before it. -/
theorem Scans.cons_sign {cs : List Char} {ts : List Token} {c : Char} {t : Token}
    (h : Scans cs ts) (hs : Sign c t) : Scans (c :: cs) (t :: ts) := by
  intro rest hr
  rw [List.cons_append, hs.scan, h rest hr, List.cons_append]

/-- Texts joined by commas scan one after the other. -/
theorem Scans.intercalate {γ : Type} {xs : List γ} {cs : γ → List Char} {ts : γ → List Token}
    (h : ∀ x ∈ xs, Scans (cs x) (ts x)) :
    Scans ([','].intercalate (xs.map cs)) ([Token.comma].intercalate (xs.map ts)) := by
  induction xs with
  | nil => intro rest _; rfl
  | cons x xs ih =>
    obtain ⟨hx, hxs⟩ := List.forall_mem_cons.1 h
    cases xs with
    | nil => simpa using hx
    | cons y ys =>
      simp only [List.map_cons, List.intercalate_cons_cons, List.append_assoc]
      exact hx.append ((ih hxs).cons_sign .comma) fun rest _ => Sign.comma.ends _

theorem scans_null : Scans "null".toList [.null] := fun _ _ => scan_of_next? (by decide) rfl

theorem scans_toString_bool (b : Bool) : Scans (toString b).toList [.bool b] := by
  intro rest _
  cases b <;> exact scan_of_next? (by decide) rfl

/-- A printed string is scanned back. -/
theorem scans_printText (s : String) : Scans (printText s).toList [.text (some s)] := by
  intro rest _
  obtain ⟨ps, hs, hj⟩ := Piece.scan?_flatMap_escaped s.toList rest
  have hn : next? '"' (s.toList.flatMap escaped ++ '"' :: rest) = some (.text (some s), rest) := by
    simp [next?, hs, hj]
  rw [printText, String.toList_ofList, List.cons_append, List.cons_append, List.append_assoc]
  exact scan_of_next? (by decide) hn

private theorem scan_of_numeral {c : Char} {cs rest : List Char} {n : Numeral}
    (hc : c = '-' ∨ c.isDigit = true) (h : Numeral.scan? (c :: cs) = some (n, rest)) :
    scan (c :: cs) = .number n :: scan rest := by
  have hb : isBlank c = false := by
    rw [Bool.eq_false_iff]
    intro hb
    simp only [isBlank, Bool.or_eq_true, decide_eq_true_eq] at hb
    rcases hb with ((rfl | rfl) | rfl) | rfl <;> exact absurd hc (by decide)
  refine scan_of_next? hb ?_
  unfold next?
  split
  case h_11 => rw [h]; rfl
  all_goals exact absurd hc (by decide)

/-- A printed whole number is scanned back. -/
theorem scans_toString_int (n : Int) : Scans (toString n).toList [.number (.ofInt n)] := by
  intro rest hr
  have hs := Numeral.scan?_toString n hr
  obtain ⟨c, cs, he, hc⟩ := Numeral.toString_eq_cons n
  rw [he, List.cons_append] at hs ⊢
  exact scan_of_numeral hc hs

end Token

end Precedence.Json
