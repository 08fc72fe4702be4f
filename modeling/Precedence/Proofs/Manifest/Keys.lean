import Mathlib
import Precedence.Manifest.Declaration

/-!
# Declarations are read by key

An object is read as a declaration member by member. Where no key of a declaration comes again,
only what the members with these keys hold counts, and not where they stand; the first key that
comes again stops the reading.
-/

namespace Precedence.Manifest

open Json Json.Format

/-- The keys that a declaration knows. -/
def memberKeys : List String := ["id", "data", "depends_on"]

/-- How many members have the key. -/
def occurrences (key : String) (members : List (String × Fragment)) : Nat :=
  members.countP fun m => m.1 == key

/-- No key that a declaration knows comes again. -/
def Unrepeated (members : List (String × Fragment)) : Prop :=
  ∀ key ∈ memberKeys, occurrences key members ≤ 1

instance (members : List (String × Fragment)) : Decidable (Unrepeated members) :=
  inferInstanceAs (Decidable (∀ key ∈ memberKeys, _))

/-- Of the keys that a declaration knows, `key` is the one that is the first to come again. -/
def FirstRepeated (key : String) (members : List (String × Fragment)) : Prop :=
  ∃ before f after, members = before ++ (key, f) :: after ∧ key ∈ memberKeys ∧
    0 < occurrences key before ∧ Unrepeated before

/-- The members with known keys, identifier first, then payload, then dependencies. -/
def inOrder (members : List (String × Fragment)) : List (String × Fragment) :=
  memberKeys.flatMap fun key => members.filter fun m => m.1 == key

/-- The object with the members. -/
def objectOf (members : List (String × Fragment)) : Fragment :=
  .object (members.map fun m => (some m.1, m.2)) true

/-- The text is one complete object with the members. -/
def IsObject (text : String) (members : List (String × Fragment)) : Prop :=
  Fragment.ofString text = (objectOf members, true)

section

variable (ι α : Type) [Format ι] [Format α]

/-- The members with known keys can be read as what they are to hold. -/
structure Fitting (depth : Nat) (members : List (String × Fragment)) : Prop where
  id : ∀ f, ("id", f) ∈ members → ∃ i : ι, Format.read depth f = .ok i
  payload : ∀ f, ("data", f) ∈ members → ∃ p : α, Format.read depth f = .ok p
  dependsOn : ∀ f, ("depends_on", f) ∈ members → ∃ ids : List ι, Format.read depth f = .ok ids

end

variable {ι α : Type} [Format ι] [Format α]

/-- The key holds the value: it is what each member with the key is read as, and what `missing`
stands for if there is none. -/
structure HoldsAt {β : Type} [Format β] (depth : Nat) (members : List (String × Fragment))
    (key : String) (missing : Option β) (value : β) : Prop where
  read : ∀ f, (key, f) ∈ members → Format.read depth f = .ok value
  absent : occurrences key members = 0 → missing = some value

/-- The declaration holds what is read from the members. Dependencies may be missing, and so may
what has a format with a value for what is absent. -/
structure Holds (depth : Nat) (members : List (String × Fragment))
    (d : Precedence.Declaration ι α) : Prop where
  id : HoldsAt depth members "id" Format.absent d.id
  payload : HoldsAt depth members "data" Format.absent d.payload
  dependsOn : HoldsAt depth members "depends_on" (some []) d.dependsOn

private theorem fitting_iff (depth : Nat) (members : List (String × Fragment)) :
    Fitting ι α depth members ↔ ∀ m ∈ members,
      (m.1 = "id" → (Format.read depth m.2 : Except Error ι).isOk) ∧
      (m.1 = "data" → (Format.read depth m.2 : Except Error α).isOk) ∧
      (m.1 = "depends_on" → (Format.read depth m.2 : Except Error (List ι)).isOk) := by
  have hok {β : Type} (x : Except Error β) : x.isOk ↔ ∃ b, x = .ok b := by
    cases x <;> simp [Except.isOk, Except.toBool]
  constructor
  · rintro h ⟨key, f⟩ hm
    simp only [hok]
    exact ⟨fun hk => h.id f (hk ▸ hm), fun hk => h.payload f (hk ▸ hm),
      fun hk => h.dependsOn f (hk ▸ hm)⟩
  · intro h
    simp only [hok] at h
    exact ⟨fun f hf => (h _ hf).1 rfl, fun f hf => (h _ hf).2.1 rfl, fun f hf => (h _ hf).2.2 rfl⟩

instance (depth : Nat) (members : List (String × Fragment)) :
    Decidable (Fitting ι α depth members) :=
  decidable_of_iff _ (fitting_iff depth members).symm

private theorem Fitting.of_append {depth : Nat} {xs ys : List (String × Fragment)}
    (h : Fitting ι α depth (xs ++ ys)) : Fitting ι α depth xs where
  id f hf := h.id f (List.mem_append_left ys hf)
  payload f hf := h.payload f (List.mem_append_left ys hf)
  dependsOn f hf := h.dependsOn f (List.mem_append_left ys hf)

/-- What has been read from the members with one key. -/
inductive Gathers {β : Type} [Format β] (depth : Nat) (members : List (String × Fragment))
    (key : String) : Option β → Prop
  | missing (h : ∀ f, (key, f) ∉ members) : Gathers depth members key none
  | found {f : Fragment} {b : β} (mem : (key, f) ∈ members)
    (h : ∀ g, (key, g) ∈ members → Format.read depth g = .ok b) : Gathers depth members key (some b)

/-- What has been read from the members of a declaration. -/
structure Drafts (depth : Nat) (members : List (String × Fragment)) (draft : Draft ι α) :
    Prop where
  id : Gathers depth members "id" draft.id
  payload : Gathers depth members "data" draft.payload
  dependsOn : Gathers depth members "depends_on" draft.dependsOn

private theorem mem_memberKeys_iff {key : String} :
    key ∈ memberKeys ↔ key = "id" ∨ key = "data" ∨ key = "depends_on" := by
  simp only [memberKeys, List.mem_cons, List.not_mem_nil, or_false]

private theorem occurrences_pos_iff {key : String} {members : List (String × Fragment)} :
    0 < occurrences key members ↔ ∃ f, (key, f) ∈ members := by
  rw [occurrences, List.countP_pos_iff]
  constructor
  · rintro ⟨⟨k, f⟩, hm, hk⟩
    rw [← eq_of_beq hk]
    exact ⟨f, hm⟩
  · rintro ⟨f, hm⟩
    exact ⟨_, hm, beq_self_eq_true key⟩

private theorem occurrences_eq_zero_iff {key : String} {members : List (String × Fragment)} :
    occurrences key members = 0 ↔ ∀ f, (key, f) ∉ members := by
  rw [← not_exists, ← occurrences_pos_iff, Nat.not_lt, Nat.le_zero]

private theorem occurrences_append (key : String) (xs ys : List (String × Fragment)) :
    occurrences key (xs ++ ys) = occurrences key xs + occurrences key ys :=
  List.countP_append

private theorem Unrepeated.of_append {xs ys : List (String × Fragment)}
    (h : Unrepeated (xs ++ ys)) :
    Unrepeated xs := by
  intro key hk
  have := h key hk
  rw [occurrences_append] at this
  omega

private theorem Unrepeated.not_mem {members : List (String × Fragment)} {key : String}
    {f : Fragment}
    (h : Unrepeated (members ++ [(key, f)])) (hk : key ∈ memberKeys) (g : Fragment) :
    (key, g) ∉ members := by
  intro hg
  have hp := occurrences_pos_iff.2 ⟨g, hg⟩
  have hl := h key hk
  have hm : occurrences key [(key, f)] = 1 := by simp [occurrences]
  rw [occurrences_append] at hl
  omega

/-- If a known key comes again, one is the first that does. -/
theorem exists_firstRepeated {members : List (String × Fragment)} (h : ¬ Unrepeated members) :
    ∃ key, FirstRepeated key members := by
  induction members using List.reverseRecOn with
  | nil => exact absurd (fun _ _ => Nat.zero_le 1) h
  | append_singleton members m ih =>
    by_cases hm : Unrepeated members
    · obtain ⟨key, hk, hlt⟩ : ∃ key ∈ memberKeys, 1 < occurrences key (members ++ [m]) := by
        simpa [Unrepeated] using h
      have hle := hm key hk
      rw [occurrences_append] at hlt
      have hp : 0 < occurrences key [m] := by omega
      obtain ⟨f, hf⟩ := occurrences_pos_iff.1 hp
      rw [List.mem_singleton] at hf
      subst hf
      have : occurrences key [(key, f)] = 1 := by simp [occurrences]
      exact ⟨key, members, f, [], rfl, hk, by omega, hm⟩
    · obtain ⟨key, before, f, after, rfl, hr⟩ := ih hm
      exact ⟨key, before, f, after ++ [m], by simp, hr⟩

namespace Gathers

variable {β : Type} [Format β] {depth : Nat} {members : List (String × Fragment)} {key : String}
  {x : Option β}

private theorem skip (h : Gathers depth members key x) {k : String} {f : Fragment} (hk : k ≠ key) :
    Gathers depth (members ++ [(k, f)]) key x := by
  have hmem : ∀ g, (key, g) ∈ members ++ [(k, f)] → (key, g) ∈ members := by
    intro g hg
    rcases List.mem_append.1 hg with hg | hg
    · exact hg
    · rw [List.mem_singleton] at hg
      exact absurd (congrArg Prod.fst hg).symm hk
  cases h with
  | missing h => exact .missing fun f hf => h f (hmem f hf)
  | found mem h => exact .found (List.mem_append_left _ mem) fun g hg => h g (hmem g hg)

private theorem take (h : ∀ f, (key, f) ∉ members) {f : Fragment} {b : β}
    (hr : Format.read depth f = .ok b) : Gathers depth (members ++ [(key, f)]) key (some b) := by
  refine .found (List.mem_append_right _ List.mem_cons_self) fun g hg => ?_
  rcases List.mem_append.1 hg with hg | hg
  · exact absurd hg (h g)
  · cases List.mem_singleton.1 hg
    exact hr

private theorem eq_none (h : Gathers depth members key x) (hm : ∀ f, (key, f) ∉ members) :
    x = none := by
  cases h with
  | missing _ => rfl
  | found mem _ => exact absurd mem (hm _)

private theorem exists_eq_some (h : Gathers depth members key x)
    (hm : 0 < occurrences key members) :
    ∃ b, x = some b ∧ ∀ f, (key, f) ∈ members → Format.read depth f = .ok b := by
  cases h with
  | missing h =>
    obtain ⟨f, hf⟩ := occurrences_pos_iff.1 hm
    exact absurd hf (h f)
  | @found f b _ h => exact ⟨b, rfl, h⟩

private theorem unique (h : Gathers depth members key x) {members' : List (String × Fragment)}
    {x' : Option β} (h' : Gathers depth members' key x')
    (hm : ∀ f, (key, f) ∈ members ↔ (key, f) ∈ members') : x = x' := by
  cases h with
  | missing h => exact (h'.eq_none fun f hf => h f ((hm f).2 hf)).symm
  | @found f b mem h =>
    obtain ⟨b', rfl, hb⟩ := h'.exists_eq_some (occurrences_pos_iff.2 ⟨f, (hm f).1 mem⟩)
    have := hb f ((hm f).1 mem)
    rw [h f mem] at this
    rw [Except.ok.inj this]

private theorem holdsAt (h : Gathers depth members key x) {missing : Option β} {b : β}
    (hb : (x <|> missing) = some b) : HoldsAt depth members key missing b := by
  cases h with
  | missing h => exact ⟨fun f hf => absurd hf (h f), fun _ => hb⟩
  | @found f b' mem h =>
    cases hb
    have hpos := occurrences_pos_iff.2 ⟨f, mem⟩
    exact ⟨h, fun hzero => absurd hzero hpos.ne'⟩

private theorem exists_orElse (h : Gathers depth members key x) {missing : Option β}
    (hm : occurrences key members = 0 → missing ≠ none) : ∃ b, (x <|> missing) = some b := by
  cases h with
  | missing h =>
    obtain ⟨b, hb⟩ := Option.ne_none_iff_exists'.mp (hm (occurrences_eq_zero_iff.2 h))
    exact ⟨b, hb⟩
  | found _ _ => exact ⟨_, rfl⟩

end Gathers

namespace Drafts

variable {depth : Nat} {members : List (String × Fragment)} {draft : Draft ι α}

private theorem nil : Drafts depth [] ({} : Draft ι α) :=
  ⟨.missing nofun, .missing nofun, .missing nofun⟩

/-- A member whose key is not known, or known and new, is read. -/
theorem readMember (h : Drafts depth members draft) {key : String} {f : Fragment}
    (hf : Fitting ι α depth (members ++ [(key, f)])) (hu : Unrepeated (members ++ [(key, f)])) :
    ∃ draft', Declaration.readMember depth draft key f = .ok draft' ∧
      Drafts depth (members ++ [(key, f)]) draft' := by
  have hm : (key, f) ∈ members ++ [(key, f)] := List.mem_append_right _ List.mem_cons_self
  unfold Declaration.readMember
  split
  next hk =>
    subst hk
    obtain ⟨i, hi⟩ := hf.id f hm
    have hn := hu.not_mem (by decide)
    rw [h.id.eq_none hn, hi]
    exact ⟨_, rfl, .take hn hi, h.payload.skip (by decide), h.dependsOn.skip (by decide)⟩
  next h1 =>
  split
  next hk =>
    subst hk
    obtain ⟨p, hp⟩ := hf.payload f hm
    have hn := hu.not_mem (by decide)
    rw [h.payload.eq_none hn, hp]
    exact ⟨_, rfl, h.id.skip (by decide), .take hn hp, h.dependsOn.skip (by decide)⟩
  next h2 =>
  split
  next hk =>
    subst hk
    obtain ⟨ids, hids⟩ := hf.dependsOn f hm
    have hn := hu.not_mem (by decide)
    rw [h.dependsOn.eq_none hn, hids]
    exact ⟨_, rfl, h.id.skip (by decide), h.payload.skip (by decide), .take hn hids⟩
  next h3 => exact ⟨draft, rfl, h.id.skip h1, h.payload.skip h2, h.dependsOn.skip h3⟩

/-- A member whose key is known and has occurred is refused. -/
theorem readMember_repeated (h : Drafts depth members draft) {key : String}
    (hk : key ∈ memberKeys) (hp : 0 < occurrences key members) (f : Fragment) :
    Declaration.readMember depth draft key f = .error (.duplicateField key) := by
  rcases mem_memberKeys_iff.1 hk with rfl | rfl | rfl
  · obtain ⟨i, hi, -⟩ := h.id.exists_eq_some hp
    simp [Declaration.readMember, hi]
  · obtain ⟨p, hi, -⟩ := h.payload.exists_eq_some hp
    simp [Declaration.readMember, hi]
  · obtain ⟨ids, hi, -⟩ := h.dependsOn.exists_eq_some hp
    simp [Declaration.readMember, hi]

/-- What is drafted from members depends on what the known keys hold and on nothing else. -/
theorem unique (h : Drafts depth members draft) {members' : List (String × Fragment)}
    {draft' : Draft ι α} (h' : Drafts depth members' draft')
    (hm : ∀ key ∈ memberKeys, ∀ f, (key, f) ∈ members ↔ (key, f) ∈ members') :
    draft = draft' := by
  have hi := h.id.unique h'.id (hm "id" (by decide))
  have hp := h.payload.unique h'.payload (hm "data" (by decide))
  have hd := h.dependsOn.unique h'.dependsOn (hm "depends_on" (by decide))
  cases draft
  cases draft'
  rw [Draft.mk.injEq]
  exact ⟨hi, hp, hd⟩

private theorem exists_holds (h : Drafts depth members draft)
    (hi : occurrences "id" members = 0 → (Format.absent : Option ι) ≠ none)
    (hp : occurrences "data" members = 0 → (Format.absent : Option α) ≠ none) :
    ∃ d, Declaration.ofDraft draft = .ok d ∧ Holds depth members d := by
  obtain ⟨i, hi⟩ := h.id.exists_orElse hi
  obtain ⟨p, hp⟩ := h.payload.exists_orElse hp
  have hd : (draft.dependsOn <|> some []) = some (draft.dependsOn.getD []) := by
    cases draft.dependsOn <;> rfl
  refine ⟨⟨i, p, draft.dependsOn.getD []⟩, ?_, h.id.holdsAt hi, h.payload.holdsAt hp,
    h.dependsOn.holdsAt hd⟩
  simp only [Declaration.ofDraft, Declaration.required, hi, hp]
  rfl

private theorem ofDraft_of_noIdentifier (h : Drafts depth members draft)
    (hi : occurrences "id" members = 0) (ha : (Format.absent : Option ι) = none) :
    Declaration.ofDraft draft = .error (.missingField "id") := by
  have hdi := h.id.eq_none (occurrences_eq_zero_iff.1 hi)
  simp only [Declaration.ofDraft, Declaration.required, hdi, ha]
  rfl

private theorem ofDraft_of_noPayload (h : Drafts depth members draft)
    (hi : occurrences "id" members = 0 → (Format.absent : Option ι) ≠ none)
    (hp : occurrences "data" members = 0) (ha : (Format.absent : Option α) = none) :
    Declaration.ofDraft draft = .error (.missingField "data") := by
  obtain ⟨i, hi⟩ := h.id.exists_orElse hi
  have hdp := h.payload.eq_none (occurrences_eq_zero_iff.1 hp)
  simp only [Declaration.ofDraft, Declaration.required, hi, hdp, ha]
  rfl

end Drafts

private theorem readMembers_append (depth : Nat) (draft : Draft ι α)
    (xs ys : List (Option String × Fragment)) :
    Declaration.readMembers depth draft (xs ++ ys) =
      Declaration.readMembers depth draft xs >>= fun draft =>
        Declaration.readMembers depth draft ys := by
  induction xs generalizing draft with
  | nil => rfl
  | cons m xs ih =>
    obtain ⟨_ | key, f⟩ := m
    · rfl
    · simp only [List.cons_append, Declaration.readMembers, ih, bind_assoc]

/-- Members of which no known key comes again are all read. -/
theorem Drafts.readMembers {depth : Nat} {seen members : List (String × Fragment)}
    {draft : Draft ι α} (h : Drafts depth seen draft) (hf : Fitting ι α depth (seen ++ members))
    (hu : Unrepeated (seen ++ members)) :
    ∃ draft', Declaration.readMembers depth draft (members.map fun m => (some m.1, m.2)) =
      .ok draft' ∧ Drafts depth (seen ++ members) draft' := by
  induction members generalizing seen draft with
  | nil => exact ⟨draft, rfl, by rwa [List.append_nil]⟩
  | cons m ms ih =>
    obtain ⟨key, f⟩ := m
    rw [List.append_cons] at hf hu ⊢
    obtain ⟨draft', hr, hd⟩ := h.readMember hf.of_append hu.of_append
    obtain ⟨draft'', hr', hd'⟩ := ih hd hf hu
    refine ⟨draft'', ?_, hd'⟩
    rw [List.map_cons, Declaration.readMembers, hr]
    exact hr'

/-- The first known key that comes again stops the reading. -/
theorem readMembers_of_firstRepeated {depth : Nat} {members : List (String × Fragment)}
    {key : String} (hf : Fitting ι α depth members) (h : FirstRepeated key members) :
    Declaration.readMembers depth ({} : Draft ι α) (members.map fun m => (some m.1, m.2)) =
      .error (.duplicateField key) := by
  obtain ⟨before, f, after, rfl, hk, hp, hu⟩ := h
  have hn : Drafts depth [] ({} : Draft ι α) := .nil
  obtain ⟨draft, hr, hd⟩ := hn.readMembers hf.of_append hu
  rw [List.map_append, readMembers_append, hr, List.map_cons]
  change Declaration.readMember depth draft key f >>= _ = _
  rw [hd.readMember_repeated hk hp]
  rfl

private theorem filter_filter_key (key k : String) (members : List (String × Fragment)) :
    ((members.filter fun m => m.1 == k).filter fun m => m.1 == key) =
      if k = key then members.filter fun m => m.1 == key else [] := by
  rw [List.filter_filter]
  split
  next h => simp [h]
  next h =>
    refine List.filter_eq_nil_iff.2 fun m _ hm => h ?_
    rw [Bool.and_eq_true, beq_iff_eq, beq_iff_eq] at hm
    exact hm.2.symm.trans hm.1

private theorem filter_inOrder {key : String} (hk : key ∈ memberKeys)
    (members : List (String × Fragment)) :
    ((inOrder members).filter fun m => m.1 == key) = members.filter fun m => m.1 == key := by
  rw [inOrder, List.filter_flatMap]
  simp only [filter_filter_key]
  rcases mem_memberKeys_iff.1 hk with rfl | rfl | rfl <;> simp [memberKeys]

private theorem mem_inOrder {key : String} (hk : key ∈ memberKeys) {f : Fragment}
    {members : List (String × Fragment)} : (key, f) ∈ inOrder members ↔ (key, f) ∈ members := by
  have h := congrArg ((key, f) ∈ ·) (filter_inOrder hk members)
  simpa [List.mem_filter] using h

private theorem occurrences_inOrder {key : String} (hk : key ∈ memberKeys)
    (members : List (String × Fragment)) :
    occurrences key (inOrder members) = occurrences key members := by
  rw [occurrences, List.countP_eq_length_filter, filter_inOrder hk, ← List.countP_eq_length_filter,
    occurrences]

private theorem Fitting.inOrder {depth : Nat} {members : List (String × Fragment)}
    (h : Fitting ι α depth members) : Fitting ι α depth (inOrder members) where
  id f hf := h.id f ((mem_inOrder (by decide)).1 hf)
  payload f hf := h.payload f ((mem_inOrder (by decide)).1 hf)
  dependsOn f hf := h.dependsOn f ((mem_inOrder (by decide)).1 hf)

private theorem Unrepeated.inOrder {members : List (String × Fragment)} (h : Unrepeated members) :
    Unrepeated (inOrder members) :=
  fun key hk => (occurrences_inOrder hk members).symm ▸ h key hk

private theorem parse_of_isObject {text : String} {members : List (String × Fragment)}
    (h : IsObject text members) :
    (parse text : Except Error (Precedence.Declaration ι α)) =
      Format.read depthLimit (objectOf members) := by
  rw [parse, h]
  exact bind_pure _

private theorem read_objectOf (members : List (String × Fragment)) :
    (Format.read depthLimit (objectOf members) : Except Error (Precedence.Declaration ι α)) =
      Declaration.readMembers (depthLimit - 1) {} (members.map fun m => (some m.1, m.2)) >>=
        Declaration.ofDraft := rfl

private theorem exists_drafts {members : List (String × Fragment)}
    (hf : Fitting ι α (depthLimit - 1) members) (hu : Unrepeated members) :
    ∃ draft : Draft ι α, Format.read depthLimit (objectOf members) = Declaration.ofDraft draft ∧
      Drafts (depthLimit - 1) members draft := by
  obtain ⟨draft, hr, hd⟩ := Drafts.nil.readMembers hf hu
  exact ⟨draft, by rw [read_objectOf, hr]; rfl, hd⟩

section

variable (ι α)

/-- How the text of an object with the members is read as a declaration. -/
structure ReadsByKey (text : String) (members : List (String × Fragment)) : Prop where
  /-- What is read is what the known members hold, as if they stood alone and in order. -/
  once : occurrences "id" members = 1 → occurrences "data" members = 1 →
    occurrences "depends_on" members ≤ 1 →
    ∃ d : Precedence.Declaration ι α, parse text = .ok d ∧ Holds (depthLimit - 1) members d ∧
      Format.read depthLimit (objectOf (inOrder members)) = .ok d ∧
      ∀ text', IsObject text' (inOrder members) → parse text' = .ok d
  /-- The first known key that comes again is the error. -/
  repeated : ¬ Unrepeated members → (∃ key, FirstRepeated key members) ∧
    ∀ key, FirstRepeated key members →
      (parse text : Except Error (Precedence.Declaration ι α)) = .error (.duplicateField key)
  /-- A missing identifier that has to be there is the error, whether there is a payload or not. -/
  noIdentifier : Unrepeated members → occurrences "id" members = 0 →
    (Format.absent : Option ι) = none →
    (parse text : Except Error (Precedence.Declaration ι α)) = .error (.missingField "id")
  /-- If only the payload is missing, and it has to be there, that is the error. -/
  noPayload : Unrepeated members →
    (occurrences "id" members = 0 → (Format.absent : Option ι) ≠ none) →
    occurrences "data" members = 0 → (Format.absent : Option α) = none →
    (parse text : Except Error (Precedence.Declaration ι α)) = .error (.missingField "data")
  /-- What is missing and need not be there is what its format has for what is absent: `none`, if
  its type is optional. -/
  optional : Unrepeated members →
    (occurrences "id" members = 0 → (Format.absent : Option ι) ≠ none) →
    (occurrences "data" members = 0 → (Format.absent : Option α) ≠ none) →
    ∃ d : Precedence.Declaration ι α, parse text = .ok d ∧ Holds (depthLimit - 1) members d

end

/-- Declarations are read by key and not by position. Whatever other members stand between the
members of a declaration and in whatever order these stand, they are read as they are in order
and alone; a known key that comes again is an error, and so is one that is missing, unless it is
that of the dependencies or its format has a value for what is absent. -/
theorem parse_byKey {text : String} {members : List (String × Fragment)}
    (ht : IsObject text members) (hf : Fitting ι α (depthLimit - 1) members) :
    ReadsByKey ι α text members where
  once hi hp hd := by
    have hu : Unrepeated members := by
      simp only [Unrepeated, memberKeys, List.forall_mem_cons]
      exact ⟨Nat.le_of_eq hi, Nat.le_of_eq hp, hd, nofun⟩
    obtain ⟨draft, he, hd⟩ := exists_drafts hf hu
    obtain ⟨d, hde, hh⟩ := hd.exists_holds (by omega) (by omega)
    have ho : Format.read depthLimit (objectOf (inOrder members)) = .ok d := by
      obtain ⟨draft', he', hd'⟩ := exists_drafts hf.inOrder hu.inOrder
      rw [he', ← hde, hd.unique hd' fun key hk f => (mem_inOrder hk).symm]
    refine ⟨d, ?_, hh, ho, fun text' ht' => (parse_of_isObject ht').trans ho⟩
    rw [parse_of_isObject ht, he, hde]
  repeated hu := by
    refine ⟨exists_firstRepeated hu, fun key hr => ?_⟩
    rw [parse_of_isObject ht, read_objectOf, readMembers_of_firstRepeated hf hr]
    rfl
  noIdentifier hu hi ha := by
    obtain ⟨draft, he, hd⟩ := exists_drafts hf hu
    rw [parse_of_isObject ht, he, hd.ofDraft_of_noIdentifier hi ha]
  noPayload hu hi hp ha := by
    obtain ⟨draft, he, hd⟩ := exists_drafts hf hu
    rw [parse_of_isObject ht, he, hd.ofDraft_of_noPayload hi hp ha]
  optional hu hi hp := by
    obtain ⟨draft, he, hd⟩ := exists_drafts hf hu
    obtain ⟨d, hde, hh⟩ := hd.exists_holds hi hp
    exact ⟨d, by rw [parse_of_isObject ht, he, hde], hh⟩

/-- An object whose members are out of order, between others of which one comes twice and holds
a key of a declaration. -/
def shuffledText : String :=
  "\x7b\"x\":[\x7b\"id\":1\x7d], \"depends_on\":[\"b\"], \"\\u0069d\":\"a\", \"x\":true, \"data\":null\x7d"

/-- The members of the shuffled object. -/
def shuffledMembers : List (String × Fragment) :=
  [("x", .array [.object [(some "id", .number ⟨false, [1], none, none⟩)] true] true),
    ("depends_on", .array [.text (some "b")] true), ("id", .text (some "a")), ("x", .bool true),
    ("data", .null)]

/-- The known members of the shuffled object, in order and alone. -/
def orderedText : String := "\x7b\"id\":\"a\",\"data\":null,\"depends_on\":[\"b\"]\x7d"

/-- An object in which two known keys come again, the payload first. -/
def repeatedText : String :=
  "\x7b\"data\":null,\"x\":[],\"data\":true,\"id\":\"a\",\"id\":\"a\"\x7d"

/-- The members of the object with repeated keys. -/
def repeatedMembers : List (String × Fragment) :=
  [("data", .null), ("x", .array [] true), ("data", .bool true), ("id", .text (some "a")),
    ("id", .text (some "a"))]

/-- An object without an identifier. -/
def unnamedText : String := "\x7b\"x\":[],\"data\":null\x7d"

/-- The members of the object without an identifier. -/
def unnamedMembers : List (String × Fragment) := [("x", .array [] true), ("data", .null)]

/-- An object with an identifier and no more. -/
def bareText : String := "\x7b\"id\":\"a\"\x7d"

/-- The members of the object with an identifier and no more. -/
def bareMembers : List (String × Fragment) := [("id", .text (some "a"))]

/-- The shuffled object is read as its known members are in order, and the first repeated key is
the error of the object that has two. What is missing is an error too, unless its type is
optional. -/
theorem parse_byKey_shuffled :
    (IsObject shuffledText shuffledMembers ∧
      Fitting String Value (depthLimit - 1) shuffledMembers ∧
      IsObject orderedText (inOrder shuffledMembers) ∧
      ∀ text ∈ [shuffledText, orderedText],
        parse text = .ok (⟨"a", Value.null, ["b"]⟩ : Precedence.Declaration String Value)) ∧
    (parse repeatedText : Except Error (Precedence.Declaration String Value)) =
      .error (.duplicateField "data") ∧
    (parse unnamedText : Except Error (Precedence.Declaration String Value)) =
      .error (.missingField "id") ∧
    parse unnamedText =
      .ok (⟨none, .null, []⟩ : Precedence.Declaration (Option String) Value) ∧
    (parse bareText : Except Error (Precedence.Declaration String Value)) =
      .error (.missingField "data") ∧
    parse bareText = .ok (⟨"a", none, []⟩ : Precedence.Declaration String (Option Int64)) := by
  have hunnamed : IsObject unnamedText unnamedMembers := by unfold IsObject; cbv
  have hbare : IsObject bareText bareMembers := by unfold IsObject; cbv
  refine ⟨?shuffled, ?repeated, ?unnamed, ?anonymous, ?bare, ?optional⟩
  case shuffled =>
    have ht : IsObject shuffledText shuffledMembers := by unfold IsObject; cbv
    have ho : IsObject orderedText (inOrder shuffledMembers) := by unfold IsObject; cbv
    have hf : Fitting String Value (depthLimit - 1) shuffledMembers := by decide
    obtain ⟨⟨i, v, ds⟩, hp, hd, -, hs⟩ :=
      (parse_byKey ht hf).once (by decide) (by decide) (by decide)
    cases hd.id.read (.text (some "a")) (by simp [shuffledMembers])
    cases hd.payload.read .null (by simp [shuffledMembers])
    cases hd.dependsOn.read (.array [.text (some "b")] true) (by simp [shuffledMembers])
    simp only [List.forall_mem_cons]
    exact ⟨ht, hf, ho, hp, hs _ ho, by simp⟩
  case repeated =>
    have ht : IsObject repeatedText repeatedMembers := by unfold IsObject; cbv
    have hf : Fitting String Value (depthLimit - 1) repeatedMembers := by decide
    exact ((parse_byKey ht hf).repeated (by decide)).2 "data"
      ⟨[("data", .null), ("x", .array [] true)], _, _, rfl, by decide, by decide, by decide⟩
  case unnamed =>
    have hf : Fitting String Value (depthLimit - 1) unnamedMembers := by decide
    exact (parse_byKey hunnamed hf).noIdentifier (by decide) (by decide) rfl
  case anonymous =>
    have hf : Fitting (Option String) Value (depthLimit - 1) unnamedMembers := by decide
    obtain ⟨⟨i, v, ds⟩, hp, hd⟩ := (parse_byKey hunnamed hf).optional (by decide)
      (fun _ => Option.some_ne_none none) (fun hzero => absurd hzero (by decide))
    cases hd.id.absent (by decide)
    cases hd.payload.read .null (by simp [unnamedMembers])
    cases hd.dependsOn.absent (by decide)
    exact hp
  case bare =>
    have hf : Fitting String Value (depthLimit - 1) bareMembers := by decide
    exact (parse_byKey hbare hf).noPayload (by decide) (by decide) (by decide) rfl
  case optional =>
    have hf : Fitting String (Option Int64) (depthLimit - 1) bareMembers := by decide
    obtain ⟨⟨i, v, ds⟩, hp, hd⟩ := (parse_byKey hbare hf).optional (by decide) (by decide)
      (fun _ => Option.some_ne_none none)
    cases hd.id.read (.text (some "a")) (by simp [bareMembers])
    cases hd.payload.absent (by decide)
    cases hd.dependsOn.absent (by decide)
    exact hp

end Precedence.Manifest
