import Mathlib.Data.List.Induction

/-!
# Lists without repeats

`eraseDups` keeps the first of each class of equal elements. What is said here holds of every
`==` that is an equivalence; equal elements may be told apart otherwise.
-/

namespace Precedence

variable {ι : Type} [BEq ι]

private theorem eraseDups_loop_concat (as bs : List ι) (a : ι) :
    List.eraseDupsBy.loop (· == ·) (as ++ [a]) bs =
      let kept := List.eraseDupsBy.loop (· == ·) as bs
      if kept.contains a then kept else kept ++ [a] := by
  induction as generalizing bs with
  | nil =>
    have hany : (bs.any fun b => a == b) = bs.contains a := List.contains_eq_any_beq.symm
    cases hc : bs.contains a <;>
      simp [List.eraseDupsBy.loop, hany, List.contains_reverse, hc]
  | cons c as ih =>
    cases hc : bs.any fun b => c == b with
    | true => simpa only [List.cons_append, List.eraseDupsBy.loop, hc] using ih bs
    | false => simpa only [List.cons_append, List.eraseDupsBy.loop, hc] using ih (c :: bs)

/-- An element at the end is kept exactly if no equal one has been kept before. -/
theorem eraseDups_concat (as : List ι) (a : ι) :
    (as ++ [a]).eraseDups =
      if as.eraseDups.contains a then as.eraseDups else as.eraseDups ++ [a] :=
  eraseDups_loop_concat as [] a

/-- What is kept does not depend on what comes later. -/
theorem isPrefix_eraseDups (as bs : List ι) : as.eraseDups <+: (as ++ bs).eraseDups := by
  induction bs using List.reverseRecOn with
  | nil => simp
  | append_singleton bs b ih =>
    rw [← List.append_assoc, eraseDups_concat]
    split
    · exact ih
    · exact ih.trans (List.prefix_append _ _)

/-- What a list contains, up to equality, a longer one does. -/
theorem contains_of_subset {as bs : List ι} (h : as ⊆ bs) {a : ι} (ha : as.contains a) :
    bs.contains a := by
  obtain ⟨b, hb, hab⟩ := List.contains_iff_exists_mem_beq.mp ha
  exact List.contains_iff_exists_mem_beq.mpr ⟨b, h hb, hab⟩

variable [EquivBEq ι]

/-- Equal elements are contained in the same lists. -/
theorem contains_congr {as : List ι} {a b : ι} (h : a == b) : as.contains a = as.contains b := by
  rw [Bool.eq_iff_iff, List.contains_iff_exists_mem_beq, List.contains_iff_exists_mem_beq]
  constructor
  · rintro ⟨c, hc, hac⟩
    exact ⟨c, hc, PartialEquivBEq.trans (PartialEquivBEq.symm h) hac⟩
  · rintro ⟨c, hc, hbc⟩
    exact ⟨c, hc, PartialEquivBEq.trans h hbc⟩

/-- Erasing repeats leaves an equal element behind. -/
theorem contains_eraseDups (as : List ι) (a : ι) : as.eraseDups.contains a = as.contains a := by
  induction as using List.reverseRecOn with
  | nil => rfl
  | append_singleton as b ih =>
    rw [eraseDups_concat]
    split
    · next hb =>
      rw [ih, List.contains_append]
      cases hab : a == b with
      | false => simp [hab]
      | true => rw [← ih, contains_congr hab, hb, Bool.true_or]
    · rw [List.contains_append, ih, List.contains_append]

/-- Elements that are equal to earlier ones are not kept. -/
theorem eraseDups_append_of_contains {as bs : List ι} (h : ∀ b ∈ bs, as.contains b) :
    (as ++ bs).eraseDups = as.eraseDups := by
  induction bs using List.reverseRecOn with
  | nil => rw [List.append_nil]
  | append_singleton bs b ih =>
    have hb : as.contains b := h b (by simp)
    rw [← List.append_assoc, eraseDups_concat, ih fun c hc => h c (List.mem_append_left _ hc),
      contains_eraseDups, if_pos hb]

/-- What is kept is the first of its equals. -/
theorem find?_of_mem_eraseDups {as : List ι} {a : ι} (ha : a ∈ as.eraseDups) :
    as.find? (· == a) = some a := by
  induction as using List.reverseRecOn with
  | nil => simp at ha
  | append_singleton as b ih =>
    rw [eraseDups_concat] at ha
    rw [List.find?_append]
    split at ha
    · rw [ih ha, Option.some_or]
    · next hb =>
      rcases List.mem_append.mp ha with ha | ha
      · rw [ih ha, Option.some_or]
      · rw [List.mem_singleton] at ha
        subst ha
        have hnone : as.find? (· == a) = none := by
          rw [List.find?_eq_none]
          intro c hc hca
          rw [contains_eraseDups] at hb
          exact hb (List.contains_iff_exists_mem_beq.mpr ⟨c, hc, PartialEquivBEq.symm hca⟩)
        simp [hnone]

/-- Of the elements that are kept, no two are equal. -/
theorem pairwise_eraseDups (as : List ι) : as.eraseDups.Pairwise fun a b => (a == b) = false := by
  induction as using List.reverseRecOn with
  | nil => simp
  | append_singleton as b ih =>
    rw [eraseDups_concat]
    split
    · exact ih
    · next hb =>
      refine List.pairwise_append.mpr ⟨ih, List.pairwise_singleton _ _, ?_⟩
      intro a ha c hc
      rw [List.mem_singleton] at hc
      subst hc
      rw [Bool.eq_false_iff]
      intro hac
      exact hb (List.contains_iff_exists_mem_beq.mpr ⟨a, ha, PartialEquivBEq.symm hac⟩)

/-- Of the elements that are kept, at most one is equal to a given one. -/
theorem countP_eraseDups (as : List ι) (a : ι) :
    as.eraseDups.countP (· == a) = if as.contains a then 1 else 0 := by
  induction as using List.reverseRecOn with
  | nil => simp
  | append_singleton as b ih =>
    rw [eraseDups_concat, contains_eraseDups, List.contains_append]
    split
    · next hb =>
      rw [ih]
      cases hab : a == b with
      | false => simp [hab]
      | true => rw [contains_congr hab, hb, Bool.true_or]
    · next hb =>
      rw [List.countP_append, ih, List.countP_singleton, BEq.comm]
      cases hab : a == b with
      | false => simp [hab]
      | true =>
        rw [contains_congr hab, Bool.eq_false_iff.mpr hb]
        simp [hab]

end Precedence
