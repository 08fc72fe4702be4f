import Precedence.Proofs.Resolution.Sorted
import Precedence.Proofs.Resolution.StartOrder

/-!
# Entities with no path between them

Of two entities that do not depend on each other either may come first. The starts decide: the first
of them that reaches one of the two takes it, and where it reaches both, its dependencies decide
likewise, in the order of their declaration. Entities are therefore kept in the order of their
registration as long as nothing that is registered before them pulls the later one forward.
-/

namespace Precedence

open Relation (ReflTransGen)

/-! ### Met first -/

/-- Looking for two elements along a list, `x` is met before `y`: the first element that reaches one
of them reaches `x` alone, or it reaches both, and `x` is met first along the list that it leads
to. -/
inductive MeetsFirst {β : Type} (reaches : β → β → Prop) (next : β → List β) (x y : β) :
    List β → Prop where
  | alone {s : β} {starts : List β} (hx : reaches s x) (hy : ¬ reaches s y) :
      MeetsFirst reaches next x y (s :: starts)
  | within {s : β} {starts : List β} (hx : reaches s x) (hy : reaches s y)
      (h : MeetsFirst reaches next x y (next s)) : MeetsFirst reaches next x y (s :: starts)
  | later {s : β} {starts : List β} (hx : ¬ reaches s x) (hy : ¬ reaches s y)
      (h : MeetsFirst reaches next x y starts) : MeetsFirst reaches next x y (s :: starts)

namespace MeetsFirst

variable {β γ : Type} {reaches : β → β → Prop} {reaches' : γ → γ → Prop} {next : β → List β}
  {next' : γ → List γ} {x y s : β} {x' y' : γ} {starts rest : List β} {starts' : List γ}
  {R : β → γ → Prop}

private theorem cons_iff : MeetsFirst reaches next x y (s :: starts) ↔
    reaches s x ∧ ¬ reaches s y ∨
      reaches s x ∧ reaches s y ∧ MeetsFirst reaches next x y (next s) ∨
        ¬ reaches s x ∧ ¬ reaches s y ∧ MeetsFirst reaches next x y starts := by
  constructor
  · rintro (⟨hx, hy⟩ | ⟨hx, hy, h⟩ | ⟨hx, hy, h⟩)
    · exact .inl ⟨hx, hy⟩
    · exact .inr (.inl ⟨hx, hy, h⟩)
    · exact .inr (.inr ⟨hx, hy, h⟩)
  · rintro (⟨hx, hy⟩ | ⟨hx, hy, h⟩ | ⟨hx, hy, h⟩)
    · exact .alone hx hy
    · exact .within hx hy h
    · exact .later hx hy h

private theorem append (hx : ∃ s ∈ starts, reaches s x) (hy : ∀ s ∈ starts, ¬ reaches s y) :
    MeetsFirst reaches next x y (starts ++ rest) := by
  induction starts with
  | nil => simp at hx
  | cons s starts ih =>
    obtain ⟨hsy, hy⟩ := List.forall_mem_cons.mp hy
    by_cases hsx : reaches s x
    · exact .alone hsx hsy
    · refine .later hsx hsy (ih ?_ hy)
      obtain ⟨t, ht, htx⟩ := hx
      rcases List.mem_cons.mp ht with rfl | ht
      · exact absurd htx hsx
      · exact ⟨t, ht, htx⟩

private theorem map (hx : ∀ b c, R b c → (reaches b x ↔ reaches' c x'))
    (hy : ∀ b c, R b c → (reaches b y ↔ reaches' c y'))
    (hnext : ∀ b c, R b c → List.Forall₂ R (next b) (next' c))
    (hstarts : List.Forall₂ R starts starts') (h : MeetsFirst reaches next x y starts) :
    MeetsFirst reaches' next' x' y' starts' := by
  induction h generalizing starts' with
  | alone hsx hsy =>
    cases hstarts with
    | cons hs _ => exact .alone ((hx _ _ hs).mp hsx) (mt (hy _ _ hs).mpr hsy)
  | within hsx hsy _ ih =>
    cases hstarts with
    | cons hs _ => exact .within ((hx _ _ hs).mp hsx) ((hy _ _ hs).mp hsy) (ih (hnext _ _ hs))
  | later hsx hsy _ ih =>
    cases hstarts with
    | cons hs hstarts =>
      exact .later (mt (hx _ _ hs).mpr hsx) (mt (hy _ _ hs).mpr hsy) (ih hstarts)

private theorem congr (hx : ∀ b c, R b c → (reaches b x ↔ reaches' c x'))
    (hy : ∀ b c, R b c → (reaches b y ↔ reaches' c y'))
    (hnext : ∀ b c, R b c → List.Forall₂ R (next b) (next' c))
    (hstarts : List.Forall₂ R starts starts') :
    MeetsFirst reaches next x y starts ↔ MeetsFirst reaches' next' x' y' starts' :=
  ⟨map hx hy hnext hstarts, map (R := flip R) (fun c b hbc => (hx b c hbc).symm)
    (fun c b hbc => (hy b c hbc).symm) (fun c b hbc => (hnext b c hbc).flip) hstarts.flip⟩

end MeetsFirst

/-! ### First in a list -/

section
variable {β : Type} {l l' : List β} {x y : β}

private theorem idxOf_lt_iff [BEq β] [LawfulBEq β] :
    l.idxOf x < l.idxOf y ↔ ∃ front, front <+: l ∧ x ∈ front ∧ y ∉ front := by
  constructor
  · intro hlt
    have htake : l.take (l.idxOf y) <+: l := List.take_prefix _ _
    have hlength : (l.take (l.idxOf y)).length = l.idxOf y :=
      List.length_take_of_le List.idxOf_le_length
    refine ⟨_, htake, ?_, ?_⟩
    · rwa [htake.mem_iff_idxOf_lt_length, hlength]
    · rw [htake.mem_iff_idxOf_lt_length, hlength]
      exact Nat.lt_irrefl _
  · rintro ⟨front, hfront, hx, hy⟩
    rw [hfront.mem_iff_idxOf_lt_length] at hx hy
    omega

private theorem exists_front_iff (hl : l <+: l') (hy : y ∈ l) :
    (∃ front, front <+: l' ∧ x ∈ front ∧ y ∉ front) ↔
      ∃ front, front <+: l ∧ x ∈ front ∧ y ∉ front := by
  constructor
  · rintro ⟨front, hfront, hx, hnot⟩
    rcases List.prefix_or_prefix_of_prefix hfront hl with hshort | hlong
    · exact ⟨front, hshort, hx, hnot⟩
    · exact absurd (hlong.subset hy) hnot
  · rintro ⟨front, hfront, hx, hnot⟩
    exact ⟨front, hfront.trans hl, hx, hnot⟩

private theorem exists_front_concat_iff {z : β} (hy : y ∈ l ++ [z]) :
    (∃ front, front <+: l ++ [z] ∧ x ∈ front ∧ y ∉ front) ↔
      ∃ front, front <+: l ∧ x ∈ front ∧ y ∉ front := by
  constructor
  · rintro ⟨front, hfront, hx, hnot⟩
    rcases List.prefix_concat_iff.mp hfront with rfl | hshort
    · exact absurd hy hnot
    · exact ⟨front, hshort, hx, hnot⟩
  · rintro ⟨front, hfront, hx, hnot⟩
    exact ⟨front, hfront.trans (List.prefix_append _ _), hx, hnot⟩

end

namespace Postorder

variable {β : Type} {next : β → List β} {order order' mid starts : List β} {x y i j : β}

private theorem mem_visited_iff (hc : Complete next order)
    (hnext : Postorder next order (next i) mid) :
    j ∈ mid ++ [i] ↔ j ∈ order ∨ ReflTransGen (fun i j => j ∈ next i) i j := by
  obtain ⟨hmid, hlisted⟩ := hnext.complete hc
  rw [List.mem_append, List.mem_singleton]
  constructor
  · rintro (hj | rfl)
    · refine (hnext.exists_reach hj).imp_right ?_
      rintro ⟨k, hk, hkj⟩
      exact hkj.head hk
    · exact .inr .refl
  · rintro (hj | hij)
    · exact .inl (hnext.isPrefix.subset hj)
    · rcases hij.cases_head with rfl | ⟨k, hk, hkj⟩
      · exact .inr rfl
      · exact .inl (hmid.mem_of_reach (hlisted k hk) hkj)

/-- Of two elements that are not listed yet, the one is listed first that is met first. -/
theorem meetsFirst_iff (h : Postorder next order starts order') (hc : Complete next order)
    (hx : x ∉ order) (hy : y ∉ order) :
    MeetsFirst (ReflTransGen fun i j => j ∈ next i) next x y starts ↔
      ∃ front, front <+: order' ∧ x ∈ front ∧ y ∉ front := by
  induction h with
  | nil =>
    constructor
    · rintro ⟨⟩
    · rintro ⟨front, hfront, hxf, -⟩
      exact absurd (hfront.subset hxf) hx
  | skip hi _ ih =>
    -- What is listed leads to what is listed, so it does not lead to `x` or `y`.
    have hix := mt (hc.mem_of_reach hi) hx
    have hiy := mt (hc.mem_of_reach hi) hy
    rw [MeetsFirst.cons_iff, ← ih hc hx hy]
    simp only [hix, hiy, false_and, not_false_eq_true, true_and, false_or]
  | @visit order mid starts order' i hi hnext h ihnext ih =>
    obtain ⟨hmid, hlisted⟩ := hnext.complete hc
    have hxmem := mem_visited_iff (j := x) hc hnext
    have hymem := mem_visited_iff (j := y) hc hnext
    simp only [hx, hy, false_or] at hxmem hymem
    have hvisited : mid ++ [i] <+: order' := h.isPrefix
    rw [MeetsFirst.cons_iff]
    -- If `y` is added with `i`, it is seen there whether `x` comes first; if not, `x` may be.
    by_cases hiy : ReflTransGen (fun i j => j ∈ next i) i y
    · rw [exists_front_iff hvisited (hymem.mpr hiy)]
      by_cases hix : ReflTransGen (fun i j => j ∈ next i) i x
      · rw [exists_front_concat_iff (hymem.mpr hiy), ← ihnext hc hx hy]
        simp only [hix, hiy, not_true_eq_false, true_and, false_and, and_false, false_or, or_false]
      · refine iff_of_false (by simp only [hix, hiy, not_true_eq_false, false_and, and_false,
          or_false, not_false_eq_true]) ?_
        rintro ⟨front, hfront, hxf, -⟩
        exact hix (hxmem.mp (hfront.subset hxf))
    · by_cases hix : ReflTransGen (fun i j => j ∈ next i) i x
      · exact iff_of_true (.inl ⟨hix, hiy⟩) ⟨_, hvisited, hxmem.mpr hix, mt hymem.mp hiy⟩
      · rw [← ih (hmid.push hlisted) (mt hxmem.mp hix) (mt hymem.mp hiy)]
        simp only [hix, hiy, false_and, not_false_eq_true, true_and, false_or]

end Postorder

/-! ### First in an order -/

variable {ι α : Type} [BEq ι] [Hashable ι]

namespace Graph

private theorem locates_iff_forall₂ {g : Graph ι α} {as : List ι} {is : List NodeIndex} :
    g.Locates as is ↔ List.Forall₂ (fun a i => g.find? a = some i) as is := by
  rw [Locates, ← List.forall₂_eq_eq_eq, List.forall₂_map_left_iff, List.forall₂_map_right_iff]

/-- Which of two identifiers is met first is which of their nodes is. -/
theorem Records.meetsFirst_iff [EquivBEq ι] [LawfulHashable ι] {g : Graph ι α} {h : History ι α}
    (hg : g.Records h.mentions h.declares h.registers) {x y : ι} {i j : NodeIndex}
    (hx : g.find? x = some i) (hy : g.find? y = some j) {as : List ι} {is : List NodeIndex}
    (hlocates : g.Locates as is) :
    MeetsFirst h.Reaches (targetsOf h.declares) x y as ↔
      MeetsFirst (ReflTransGen g.Edge) g.successors i j is :=
  MeetsFirst.congr (fun _ _ ha => hg.reaches_iff ha hx) (fun _ _ ha => hg.reaches_iff ha hy)
    (fun _ _ ha => locates_iff_forall₂.mp (hg.locates_targets ha)) (locates_iff_forall₂.mp hlocates)

end Graph

namespace History

omit [Hashable ι]

variable [EquivBEq ι] {h : History ι α} {x y : ι}

private theorem Reaches.congr_left {z : ι} (hxy : h.Reaches x y) (hxz : x == z) :
    h.Reaches z y := by
  rcases hxy with hxy | hxy
  · exact .inl (PartialEquivBEq.trans (PartialEquivBEq.symm hxz) hxy)
  · right
    obtain ⟨b, ⟨d, hd, hdx, hdb⟩, hby⟩ := Relation.TransGen.head'_iff.mp hxy
    exact Relation.TransGen.head' ⟨d, hd, PartialEquivBEq.trans hdx hxz, hdb⟩ hby

omit [EquivBEq ι] in
private theorem not_reaches_of_forall (hx : ∀ d ∈ h.declares, ¬ d.1 == x) (hxy : ¬ x == y) :
    ¬ h.Reaches x y := by
  rintro (heq | hpath)
  · exact hxy heq
  · obtain ⟨b, ⟨d, hd, hdx, -⟩, -⟩ := Relation.TransGen.head'_iff.mp hpath
    exact hx d hd hdx

private theorem exists_roots_eq (hx : h.roots.contains x) :
    ∃ first z last, h.roots = first ++ z :: last ∧ x == z ∧ ∀ r ∈ first, h.RegistersBefore r x := by
  obtain ⟨z, hz, hxz⟩ := List.contains_iff_exists_mem_beq.mp hx
  obtain ⟨first, last, hroots⟩ := List.append_of_mem hz
  refine ⟨first, z, last, hroots, hxz, ?_⟩
  intro r hr
  refine ⟨first, hroots ▸ List.prefix_append _ _, ?_, ?_⟩
  · exact List.contains_iff_exists_mem_beq.mpr ⟨r, hr, BEq.refl r⟩
  · intro hxf
    obtain ⟨c, hc, hxc⟩ := List.contains_iff_exists_mem_beq.mp hxf
    have hdistinct : h.roots.Pairwise fun a b => (a == b) = false := pairwise_eraseDups _
    rw [hroots] at hdistinct
    have hcz := (List.pairwise_append.mp hdistinct).2.2 c hc z List.mem_cons_self
    rw [PartialEquivBEq.trans (PartialEquivBEq.symm hxc) hxz] at hcz
    cases hcz

private theorem meetsFirst_of_roots (hx : h.roots.contains x) (hxy : ¬ h.Reaches x y)
    (hpull : ∀ r, h.RegistersBefore r x → ¬ h.Reaches r y) :
    MeetsFirst h.Reaches (targetsOf h.declares) x y h.starts := by
  obtain ⟨first, z, last, hroots, hxz, hfirst⟩ := exists_roots_eq hx
  have hstarts : h.starts = (first ++ [z]) ++ (last ++ h.identifiers) := by
    rw [starts, ← roots, hroots]
    simp
  rw [hstarts]
  refine .append ⟨z, by simp, .inl (PartialEquivBEq.symm hxz)⟩ ?_
  intro s hs
  rcases List.mem_append.mp hs with hs | hs
  · exact hpull s (hfirst s hs)
  · rw [List.mem_singleton.mp hs]
    exact fun hzy => hxy (hzy.congr_left (PartialEquivBEq.symm hxz))

end History

namespace Registry

variable [EquivBEq ι] [LawfulHashable ι]

/-- Of two entities the one comes first that is met first from the starts. What is registered keeps
its place before an entity, therefore, unless it reaches this entity itself or something does that is
registered earlier. -/
theorem ties_of_resolve (options : Options) (h : History ι α) {res : Resolution ι α}
    (hres : (ofHistory options h).resolve = .ok res) {x y : ι} (hx : h.mentions.contains x)
    (hy : h.mentions.contains y) :
    ∃ p q, res.position? x = some p ∧ res.position? y = some q ∧
      (p < q ↔ MeetsFirst h.Reaches (targetsOf h.declares) x y h.starts) ∧
      (h.roots.contains x → ¬ h.Reaches x y →
        (∀ r, h.RegistersBefore r x → ¬ h.Reaches r y) → p < q) := by
  have hr := (represents_ofHistory options h).records
  obtain ⟨hg, hpostorder⟩ := postorder_of_resolve options h hres
  have hmem {i : NodeIndex} (hi : i < (ofHistory options h).graph.size) : i ∈ res.order :=
    (hg.mem_order_iff (fun _ => mem_starts_of_lt options h) i).mpr hi
  obtain ⟨i, hi⟩ := (hr.exists_find?_iff x).mpr hx
  obtain ⟨j, hj⟩ := (hr.exists_find?_iff y).mpr hy
  have hlaw : res.order.toList.idxOf i < res.order.toList.idxOf j ↔
      MeetsFirst h.Reaches (targetsOf h.declares) x y h.starts := by
    rw [hr.meetsFirst_iff hi hj (locates_starts options h), idxOf_lt_iff]
    exact (hpostorder.meetsFirst_iff (by simp [Postorder.Complete]) (by simp) (by simp)).symm
  exact ⟨_, _, hg.position?_of_find? hi (hmem (hr.indexed.lt_size hi)),
    hg.position?_of_find? hj (hmem (hr.indexed.lt_size hj)), hlaw,
    fun hroot hxy hpull => hlaw.mpr (History.meetsFirst_of_roots hroot hxy hpull)⟩

/-- Four registered entities. The first depends on the third and on the fourth, and the fourth on the
second. -/
def pulled : History Nat Unit :=
  [.node 1 (), .node 2 (), .node 3 (), .node 4 (), .dependencies 1 [3, 4], .dependencies 4 [2]]

/-- The second and the third have no path between them and change places, because the first depends
on the third and comes to the second later. -/
theorem ties_of_resolve_pulled :
    ∃ res, (ofHistory .lenient pulled).resolve = .ok res ∧
      (∀ a, pulled.mentions.contains a → pulled.roots.contains a) ∧
      pulled.RegistersBefore 2 3 ∧ ¬ pulled.Reaches 2 3 ∧ ¬ pulled.Reaches 3 2 ∧
      res.position? 2 = some 1 ∧ res.position? 3 = some 0 := by
  have hread : (ofHistory .lenient pulled).resolve.toOption.map
      (fun res => (res.position? 2, res.position? 3)) = some (some 1, some 0) := by cbv
  obtain ⟨res, hres, hplaces⟩ := exists_ok_of_map_toOption hread
  obtain ⟨h2, h3⟩ := Prod.mk.inj hplaces
  have hmentions : pulled.mentions ⊆ pulled.roots := by decide
  exact ⟨res, hres, fun a ha => contains_of_subset hmentions ha,
    ⟨[1, 2], by decide, by decide, by decide⟩, History.not_reaches_of_forall (by decide) (by decide),
    History.not_reaches_of_forall (by decide) (by decide), h2, h3⟩

/-- One more entity is registered before all others, and nothing pulls them ahead of it. -/
def spared : History Nat Unit := .node 5 () :: pulled

/-- It comes first. Of the others, the third is met before the second. -/
theorem ties_of_resolve_spared :
    ∃ res, (ofHistory .lenient spared).resolve = .ok res ∧ res.ids = .ok [5, 3, 2, 4, 1] ∧
      (∃ p q, res.position? 5 = some p ∧ res.position? 2 = some q ∧ p < q) ∧
      MeetsFirst spared.Reaches (targetsOf spared.declares) 3 2 spared.starts := by
  have hread : (ofHistory .lenient spared).resolve.toOption.map
      (fun res => (res.ids, res.position? 3, res.position? 2)) =
        some (.ok [5, 3, 2, 4, 1], some 1, some 2) := by cbv
  obtain ⟨res, hres, hviews⟩ := exists_ok_of_map_toOption hread
  simp only [Prod.mk.injEq] at hviews
  obtain ⟨hids, h3, h2⟩ := hviews
  obtain ⟨p, q, hp, hq, -, hkept⟩ :=
    ties_of_resolve .lenient spared hres (x := 5) (y := 2) (by decide) (by decide)
  obtain ⟨r, s, hr, hs, hlaw, -⟩ :=
    ties_of_resolve .lenient spared hres (x := 3) (y := 2) (by decide) (by decide)
  refine ⟨res, hres, hids, ⟨p, q, hp, hq, ?_⟩, ?_⟩
  · refine hkept (by decide) (History.not_reaches_of_forall (by decide) (by decide)) ?_
    rintro a ⟨before, hbefore, ha, hnot⟩
    -- A beginning of the registrations without the first one is empty.
    have hroots : spared.roots = 5 :: [1, 2, 3, 4] := by decide
    rw [hroots] at hbefore
    rcases List.prefix_cons_iff.mp hbefore with rfl | ⟨rest, rfl, -⟩
    · simp at ha
    · simp at hnot
  · rw [h3] at hr
    rw [h2] at hs
    cases hr
    cases hs
    exact hlaw.mp (by decide)

end Registry

end Precedence
