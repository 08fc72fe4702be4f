import Mathlib.Logic.Relation

/-!
# Lists in postorder

`Postorder next order starts order'` extends the list `order` by whatever is reached from the
`starts` and not listed yet: what `next` lists for an element comes before the element, in the
order of that list. The relation knows no marks and no stack. It has no derivation where a cycle
would be entered, and otherwise the starts determine the list.
-/

namespace Precedence

open Relation (ReflTransGen TransGen)

/-- The list that `order` has become when the `starts` have been gone through. -/
inductive Postorder {β : Type} (next : β → List β) : List β → List β → List β → Prop where
  | nil {order : List β} : Postorder next order [] order
  /-- A start that is listed is passed over. -/
  | skip {order starts order' : List β} {i : β} (hi : i ∈ order)
      (h : Postorder next order starts order') : Postorder next order (i :: starts) order'
  /-- A new start comes after all that it leads to. -/
  | visit {order mid starts order' : List β} {i : β} (hi : i ∉ order)
      (hnext : Postorder next order (next i) mid)
      (h : Postorder next (mid ++ [i]) starts order') : Postorder next order (i :: starts) order'

namespace Postorder

variable {β : Type} {next next' : β → List β} {order order' mid starts rest : List β} {i : β}

/-- The list only grows. -/
theorem isPrefix (h : Postorder next order starts order') : order <+: order' := by
  induction h with
  | nil => exact List.prefix_rfl
  | skip _ _ ih => exact ih
  | visit _ _ _ ihnext ih => exact ihnext.trans ((List.prefix_append _ _).trans ih)

/-- The starts determine the list. -/
theorem unique {order₁ order₂ : List β} (h₁ : Postorder next order starts order₁)
    (h₂ : Postorder next order starts order₂) : order₁ = order₂ := by
  induction h₁ generalizing order₂ with
  | nil =>
    cases h₂
    rfl
  | skip hi _ ih =>
    cases h₂ with
    | skip _ h₂ => exact ih h₂
    | visit hi' => exact absurd hi hi'
  | visit hi _ _ ihnext ih =>
    cases h₂ with
    | skip hi' => exact absurd hi' hi
    | visit _ hnext h₂ =>
      have hmid := ihnext hnext
      subst hmid
      exact ih h₂

/-- Starts may be gone through in two parts. -/
theorem split (h : Postorder next order (starts ++ rest) order') :
    ∃ mid, Postorder next order starts mid ∧ Postorder next mid rest order' := by
  induction starts generalizing order with
  | nil => exact ⟨order, .nil, h⟩
  | cons i starts ih =>
    cases h with
    | skip hi h =>
      obtain ⟨mid, hleft, hright⟩ := ih h
      exact ⟨mid, .skip hi hleft, hright⟩
    | visit hi hnext h =>
      obtain ⟨mid, hleft, hright⟩ := ih h
      exact ⟨mid, .visit hi hnext hleft, hright⟩

/-- Parts of the starts make up the whole. -/
theorem append (h : Postorder next order starts mid) (h' : Postorder next mid rest order') :
    Postorder next order (starts ++ rest) order' := by
  induction h with
  | nil => exact h'
  | skip hi _ ih => exact .skip hi (ih h')
  | visit hi hnext _ _ ih => exact .visit hi hnext (ih h')

/-- A start that is new is listed at once after all that it leads to. -/
theorem exists_of_not_mem (hi : i ∉ order) (h : Postorder next order [i] order') :
    ∃ mid, order' = mid ++ [i] := by
  cases h with
  | skip hi' => exact absurd hi' hi
  | visit _ _ h =>
    cases h
    exact ⟨_, rfl⟩

/-- Starts that are listed may be gone through without adding anything. -/
theorem of_subset (hs : ∀ i ∈ starts, i ∈ order) : Postorder next order starts order := by
  induction starts with
  | nil => exact .nil
  | cons i starts ih =>
    exact .skip (hs i List.mem_cons_self) (ih fun j hj => hs j (List.mem_cons_of_mem _ hj))

/-- Starts that are listed add nothing. -/
theorem eq_of_subset (hs : ∀ i ∈ starts, i ∈ order) (h : Postorder next order starts order') :
    order' = order := by
  induction h with
  | nil => rfl
  | skip _ _ ih => exact ih fun j hj => hs j (List.mem_cons_of_mem _ hj)
  | visit hi => exact absurd (hs _ List.mem_cons_self) hi

/-- Starts are listed as they come if all that one of them leads to comes before it. -/
theorem of_sorted (hnodup : (order ++ starts).Nodup)
    (hnext : ∀ i ∈ starts, ∀ j ∈ next i, ∃ before, before <+: order ++ starts ∧ j ∈ before ∧
      i ∉ before) : Postorder next order starts (order ++ starts) := by
  induction starts generalizing order with
  | nil =>
    rw [List.append_nil]
    exact .nil
  | cons i starts ih =>
    have hi : i ∉ order := fun hi => (List.nodup_append.mp hnodup).2.2 i hi i (by simp) rfl
    have hlisted : ∀ j ∈ next i, j ∈ order := by
      intro j hj
      obtain ⟨before, hbefore, hjb, hib⟩ := hnext i List.mem_cons_self j hj
      -- A beginning that does not hold the start ends before it.
      rcases List.prefix_or_prefix_of_prefix hbefore
          (List.prefix_append_right_inj order |>.mpr (List.prefix_append [i] starts)) with h | h
      · rcases List.prefix_concat_iff.mp h with rfl | h
        · exact absurd (by simp) hib
        · exact h.subset hjb
      · exact absurd (h.subset (by simp)) hib
    rw [List.append_cons] at hnodup hnext ⊢
    exact .visit hi (of_subset hlisted) (ih hnodup fun k hk => hnext k (List.mem_cons_of_mem _ hk))

/-- Only what is listed in the end is ever looked up. -/
theorem congr (h : Postorder next order starts order') (hn : ∀ i ∈ order', next' i = next i) :
    Postorder next' order starts order' := by
  induction h with
  | nil => exact .nil
  | skip hi _ ih => exact .skip hi (ih hn)
  | @visit order mid starts order' i hi hnext h ihnext ih =>
    have hmid : mid ++ [i] <+: order' := h.isPrefix
    have hmem : i ∈ order' := hmid.subset (by simp)
    refine .visit hi ?_ (ih hn)
    rw [hn i hmem]
    exact ihnext fun j hj => hn j (hmid.subset (List.mem_append_left _ hj))

/-! ### What is listed -/

/-- What a listed element leads to is listed. -/
def Complete (next : β → List β) (order : List β) : Prop :=
  ∀ i ∈ order, ∀ j ∈ next i, j ∈ order

/-- What is reached from a listed element is listed. -/
theorem Complete.mem_of_reach (hc : Complete next order) {j : β} (hi : i ∈ order)
    (hij : ReflTransGen (fun i j => j ∈ next i) i j) : j ∈ order := by
  induction hij with
  | refl => exact hi
  | tail _ hjk ih => exact hc _ ih _ hjk

/-- An element may be listed after all that it leads to. -/
theorem Complete.push (hc : Complete next order) (hi : ∀ j ∈ next i, j ∈ order) :
    Complete next (order ++ [i]) := by
  intro k hk j hj
  rcases List.mem_append.mp hk with hk | hk
  · exact List.mem_append_left _ (hc k hk j hj)
  · rw [List.mem_singleton] at hk
    subst hk
    exact List.mem_append_left _ (hi j hj)

/-- A complete list stays complete, and the starts are listed in the end. -/
theorem complete (h : Postorder next order starts order') (hc : Complete next order) :
    Complete next order' ∧ ∀ i ∈ starts, i ∈ order' := by
  induction h with
  | nil => exact ⟨hc, by simp⟩
  | @skip order starts order' i hi h ih =>
    obtain ⟨hcomplete, hstarts⟩ := ih hc
    exact ⟨hcomplete, List.forall_mem_cons.mpr ⟨h.isPrefix.subset hi, hstarts⟩⟩
  | @visit order mid starts order' i hi hnext h ihnext ih =>
    obtain ⟨hmid, hlisted⟩ := ihnext hc
    obtain ⟨hcomplete, hstarts⟩ := ih (hmid.push hlisted)
    exact ⟨hcomplete, List.forall_mem_cons.mpr ⟨h.isPrefix.subset (by simp), hstarts⟩⟩

/-- What an element leads to by a detour it may also lead to directly, after all else: by then it
is listed. -/
theorem append_reached (h : Postorder next order starts order') (hc : Complete next order)
    (hnext : ∀ i, ∃ more, next' i = next i ++ more ∧
      ∀ j ∈ more, TransGen (fun i j => j ∈ next i) i j) :
    Postorder next' order starts order' := by
  induction h with
  | nil => exact .nil
  | skip hi _ ih => exact .skip hi (ih hc)
  | @visit order mid starts order' i hi hvisit h ihnext ih =>
    obtain ⟨more, hmore, hreached⟩ := hnext i
    obtain ⟨hmid, hlisted⟩ := hvisit.complete hc
    have hlate : ∀ j ∈ more, j ∈ mid := by
      intro j hj
      obtain ⟨k, hk, hkj⟩ := TransGen.head'_iff.mp (hreached j hj)
      exact hmid.mem_of_reach (hlisted k hk) hkj
    refine .visit hi ?_ (ih (hmid.push hlisted))
    rw [hmore]
    exact (ihnext hc).append (of_subset hlate)

/-- What is listed was listed before, or is reached from a start. -/
theorem exists_reach (h : Postorder next order starts order') {j : β} (hj : j ∈ order') :
    j ∈ order ∨ ∃ i ∈ starts, ReflTransGen (fun i j => j ∈ next i) i j := by
  induction h with
  | nil => exact .inl hj
  | skip _ _ ih =>
    refine (ih hj).imp_right ?_
    rintro ⟨k, hk, hkj⟩
    exact ⟨k, List.mem_cons_of_mem _ hk, hkj⟩
  | @visit order mid starts order' i hi hnext h ihnext ih =>
    rcases ih hj with hj | ⟨k, hk, hkj⟩
    · rcases List.mem_append.mp hj with hj | hj
      · refine (ihnext hj).imp_right ?_
        rintro ⟨k, hk, hkj⟩
        exact ⟨i, List.mem_cons_self, hkj.head hk⟩
      · rw [List.mem_singleton] at hj
        subst hj
        exact .inr ⟨j, List.mem_cons_self, .refl⟩
    · exact .inr ⟨k, List.mem_cons_of_mem _ hk, hkj⟩

/-- Beginning with nothing, exactly what is reached from the starts is listed. -/
theorem mem_iff (h : Postorder next [] starts order') (j : β) :
    j ∈ order' ↔ ∃ i ∈ starts, ReflTransGen (fun i j => j ∈ next i) i j := by
  constructor
  · intro hj
    exact (h.exists_reach hj).resolve_left List.not_mem_nil
  · rintro ⟨i, hi, hij⟩
    obtain ⟨hcomplete, hstarts⟩ := h.complete (by simp [Complete])
    exact hcomplete.mem_of_reach (hstarts i hi) hij

end Postorder

end Precedence
