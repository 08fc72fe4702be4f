import Mathlib
import Precedence.Proofs.Traversal.Interruption
import Precedence.Proofs.Traversal.Nesting

/-!
# How far a walk gets

A walk that nobody stops enters the nodes that its start leads to through nodes that have not been
entered before, and no others, whatever earlier walks have left behind. Each of them is entered and
left once, the clock advances at each of these events and at no other, and all other nodes stay as
they are.
-/

namespace Precedence

open Relation (ReflTransGen)

variable {ι α σ ε : Type}

/-! ### Entries and exits -/

namespace Event

/-- The index of the node that an event enters. -/
def entered? : Event ι α → Option NodeIndex
  | .enter i _ => some i
  | _ => none

/-- The index of the node that an event leaves. -/
def left? : Event ι α → Option NodeIndex
  | .leave i _ => some i
  | _ => none

/-- The nodes that events enter, in order. -/
def entries (es : List (Event ι α)) : List NodeIndex := es.filterMap entered?

/-- The nodes that events leave, in order. -/
def exits (es : List (Event ι α)) : List NodeIndex := es.filterMap left?

section
variable {es : List (Event ι α)} {i : NodeIndex} {n source target : Node ι α} {kind : EdgeKind}

@[simp] theorem entries_concat_enter : entries (es ++ [.enter i n]) = entries es ++ [i] := by
  simp [entries, entered?]

@[simp] theorem entries_concat_edge :
    entries (es ++ [.edge source target kind]) = entries es := by
  simp [entries, entered?]

@[simp] theorem entries_concat_leave : entries (es ++ [.leave i n]) = entries es := by
  simp [entries, entered?]

@[simp] theorem exits_concat_enter : exits (es ++ [.enter i n]) = exits es := by
  simp [exits, left?]

@[simp] theorem exits_concat_edge : exits (es ++ [.edge source target kind]) = exits es := by
  simp [exits, left?]

@[simp] theorem exits_concat_leave : exits (es ++ [.leave i n]) = exits es ++ [i] := by
  simp [exits, left?]

/-- A node is among the entries exactly when an event enters it. -/
theorem mem_entries_iff : i ∈ entries es ↔ EnteredIn es i := by
  simp only [entries, List.mem_filterMap, EnteredIn]
  constructor
  · rintro ⟨event, hevent, hi⟩
    cases event with
    | enter j n =>
      cases hi
      exact ⟨n, hevent⟩
    | edge => cases hi
    | leave => cases hi
  · rintro ⟨n, hn⟩
    exact ⟨_, hn, rfl⟩

private theorem mem_exits_iff : i ∈ exits es ↔ LeftIn es i := by
  simp only [exits, List.mem_filterMap, LeftIn]
  constructor
  · rintro ⟨event, hevent, hi⟩
    cases event with
    | enter => cases hi
    | edge => cases hi
    | leave j n =>
      cases hi
      exact ⟨n, hevent⟩
  · rintro ⟨n, hn⟩
    exact ⟨_, hn, rfl⟩

end

end Event

open Event (entries exits mem_entries_iff mem_exits_iff)

variable [BEq ι] [Hashable ι]

/-! ### The extent -/

namespace Graph

/-- The node is in the arena and has not been entered. -/
def IsNew (g : Graph ι α) (i : NodeIndex) : Prop := g.visit? i = some .undiscovered

instance (g : Graph ι α) (i : NodeIndex) : Decidable (g.IsNew i) :=
  inferInstanceAs (Decidable (g.visit? i = some .undiscovered))

/-- The nodes that a start leads to along edges through new nodes, the start included. -/
def extent (g : Graph ι α) (start : NodeIndex) : Set NodeIndex :=
  {i | g.IsNew start ∧ ReflTransGen (fun k l => g.Edge k l ∧ g.IsNew l) start i}

section
variable {g : Graph ι α} {i j start : NodeIndex} {n : Node ι α}

theorem isNew_of_node (hi : g.nodes[i]? = some n) (hv : n.visit = .undiscovered) : g.IsNew i := by
  rw [IsNew, visit?_of_node hi, hv]

/-- A new node has not been entered. -/
theorem IsNew.not_isEntered (hi : g.IsNew i) : ¬ g.IsEntered i := by
  rintro ⟨v, hv, hne⟩
  rw [hi] at hv
  exact hne (Option.some.inj hv).symm

private theorem mem_extent_self (hstart : g.IsNew start) : start ∈ g.extent start := ⟨hstart, .refl⟩

private theorem mem_extent_of_edge (hi : i ∈ g.extent start) (hij : g.Edge i j) (hj : g.IsNew j) :
    j ∈ g.extent start :=
  ⟨hi.1, hi.2.tail ⟨hij, hj⟩⟩

private theorem extent_of_isEntered (hstart : g.IsEntered start) : g.extent start = ∅ := by
  rw [Set.eq_empty_iff_forall_notMem]
  intro i hi
  exact hi.1.not_isEntered hstart

end

/-- A node of the extent has an edge to an index past the end of the arena. -/
def LeadsOut (g : Graph ι α) (start j : NodeIndex) : Prop :=
  g.size ≤ j ∧ ∃ i ∈ g.extent start, g.Edge i j

private theorem Closed.not_leadsOut {g : Graph ι α} (hg : g.Closed) (start j : NodeIndex) :
    ¬ g.LeadsOut start j := by
  rintro ⟨hj, i, -, hij⟩
  exact (hg i j hij).not_ge hj

end Graph

/-- A node that is new halfway through was new before. -/
theorem Halfway.isNew_of_node {g₀ g : Graph ι α} {es : List (Event ι α)} {trail : List NodeIndex}
    {j : NodeIndex} {target : Node ι α} (h : Halfway g₀ es trail g)
    (hj : g.nodes[j]? = some target) (hv : target.visit = .undiscovered) : g₀.IsNew j := by
  rw [Graph.IsNew, Graph.visit?, ← h.kept j (h.not_enteredIn hj hv)]
  exact Graph.isNew_of_node hj hv

namespace Walk

/-! ### The clock along a walk -/

/-- Since the clock was at `time`, it has advanced by one at each entry and at each exit, and no
node was entered or left twice. -/
structure Clocked (time : Nat) (es : List (Event ι α)) (g : Graph ι α) : Prop where
  nodup_entries : (entries es).Nodup
  nodup_exits : (exits es).Nodup
  entered : ∀ i ∈ exits es, i ∈ entries es
  clock_eq : g.clock = time + (entries es).length + (exits es).length
  entrance : ∀ i ∈ entries es, ∃ t, g.entrance? i = some t ∧ time ≤ t
  exit : ∀ i ∈ exits es, ∃ u, g.exit? i = some u ∧ time ≤ u

section
variable {time : Nat} {es : List (Event ι α)} {g : Graph ι α} {i j : NodeIndex}
  {n source target : Node ι α}

private theorem clocked_nil (g : Graph ι α) : Clocked g.clock [] g := by
  constructor <;> simp [entries, exits]

private theorem Clocked.edge (h : Clocked time es g) (source target : Node ι α) (kind : EdgeKind) :
    Clocked time (es ++ [.edge source target kind]) g := by
  obtain ⟨hentries, hexits, hentered, hclock, hentrance, hexit⟩ := h
  constructor <;> simpa

private theorem Clocked.enter (h : Clocked time es g) (hj : g.nodes[j]? = some target)
    (hv : target.visit = .undiscovered) (hvisit : n.visit = .discovered g.clock)
    (hnew : j ∉ entries es) : Clocked time (es ++ [.enter j n]) (g.stamp j n) := by
  have hentrance := Graph.entrance?_enter hj hvisit
  have hexit : (g.stamp j n).exit? = g.exit? := Graph.exit?_enter hj hv hvisit
  have hclock := h.clock_eq
  constructor
  · rw [Event.entries_concat_enter]
    exact List.Nodup.append h.nodup_entries (List.nodup_singleton j) (by simpa using hnew)
  · rw [Event.exits_concat_enter]
    exact h.nodup_exits
  · intro i hi
    rw [Event.exits_concat_enter] at hi
    rw [Event.entries_concat_enter]
    exact List.mem_append_left _ (h.entered i hi)
  · rw [Event.entries_concat_enter, Event.exits_concat_enter, List.length_append]
    simp only [Graph.stamp, List.length_singleton]
    omega
  · intro i hi
    rw [hentrance]
    split
    · exact ⟨g.clock, rfl, by omega⟩
    · next hji =>
      rw [Event.entries_concat_enter] at hi
      have hi : i ∈ entries es := by simpa [Ne.symm hji] using hi
      exact h.entrance i hi
  · intro i hi
    rw [Event.exits_concat_enter] at hi
    rw [hexit]
    exact h.exit i hi

private theorem Clocked.leave (h : Clocked time es g) (hi : g.nodes[i]? = some n) (ho : g.IsOpen i)
    (hentered : i ∈ entries es) (hnew : i ∉ exits es) :
    Clocked time (es ++ [.leave i (n.leave g.clock)]) (g.stamp i (n.leave g.clock)) := by
  have hentrance := Graph.entrance?_leave hi
  have hexit := Graph.exit?_leave hi ho
  have hclock := h.clock_eq
  constructor
  · rw [Event.entries_concat_leave]
    exact h.nodup_entries
  · rw [Event.exits_concat_leave]
    exact List.Nodup.append h.nodup_exits (List.nodup_singleton i) (by simpa using hnew)
  · intro k hk
    rw [Event.exits_concat_leave] at hk
    rw [Event.entries_concat_leave]
    rcases List.mem_append.mp hk with hk | hk
    · exact h.entered k hk
    · rw [List.mem_singleton.mp hk]
      exact hentered
  · rw [Event.entries_concat_leave, Event.exits_concat_leave, List.length_append]
    simp only [Graph.stamp, List.length_singleton]
    omega
  · intro k hk
    rw [Event.entries_concat_leave] at hk
    rw [hentrance]
    exact h.entrance k hk
  · intro k hk
    rw [hexit]
    split
    · exact ⟨g.clock, rfl, by omega⟩
    · next hik =>
      rw [Event.exits_concat_leave] at hk
      have hk : k ∈ exits es := by simpa [Ne.symm hik] using hk
      exact h.exit k hk

end

/-! ### What a walk has entered -/

/-- A walk from a start is under way in the graph `g`, which was `g₀` before. What it has entered is
in the extent of the start, and it has still to look at all edges that may lead on. -/
structure Spread (g₀ : Graph ι α) (start : NodeIndex) (es : List (Event ι α)) (path : List Frame)
    (g : Graph ι α) : Prop extends Halfway g₀ es (trail path) g where
  begun : start ∈ entries es
  mem_extent : ∀ i ∈ entries es, i ∈ g₀.extent start
  /-- An edge of a node that was entered is pending, or its target has been entered. -/
  swept : ∀ i ∈ entries es, ∀ j, g₀.Edge i j →
    (∃ f ∈ path, f.index = i ∧ j ∈ f.pending) ∨ g.IsEntered j

section
variable {g₀ g : Graph ι α} {start : NodeIndex} {es : List (Event ι α)} {path : List Frame}
  {i j : NodeIndex} {pending : List NodeIndex} {n source target : Node ι α}

private theorem spread_start (hi : g.nodes[start]? = some n) (hv : n.visit = .undiscovered) :
    Spread g start [.enter start (n.enter g.clock)] [⟨start, n.neighbors⟩]
      (g.stamp start (n.enter g.clock)) where
  toHalfway := (halfway_nil g).enter hi hv rfl rfl (by simp)
  begun := by simp [entries, Event.entered?]
  mem_extent i hi' := by
    have his : i = start := by simpa [entries, Event.entered?] using hi'
    rw [his]
    exact Graph.mem_extent_self (Graph.isNew_of_node hi hv)
  swept i hi' j hij := by
    have his : i = start := by simpa [entries, Event.entered?] using hi'
    subst his
    rw [Graph.Edge, Graph.successors_of_node hi] at hij
    exact .inl ⟨_, List.mem_cons_self, rfl, hij⟩

private theorem Spread.mem_entries (h : Spread g₀ start es (⟨i, pending⟩ :: path) g) :
    i ∈ entries es ∧ i ∉ exits es := by
  rw [mem_entries_iff, mem_exits_iff]
  exact (h.mem_trail_iff i).mp (head_mem_trail ..)

/-- An edge to a node that has been entered may be looked at and left behind. -/
theorem Spread.advance (h : Spread g₀ start es (⟨i, j :: pending⟩ :: path) g)
    (hj : g.IsEntered j) : Spread g₀ start es (⟨i, pending⟩ :: path) g where
  toHalfway := h.toHalfway
  begun := h.begun
  mem_extent := h.mem_extent
  swept k hk l hkl := by
    rcases h.swept k hk l hkl with ⟨f, hf, hfk, hl⟩ | hl
    · rcases List.mem_cons.mp hf with rfl | hf
      · rcases List.mem_cons.mp hl with rfl | hl
        · exact .inr hj
        · exact .inl ⟨_, List.mem_cons_self, hfk, hl⟩
      · exact .inl ⟨f, List.mem_cons_of_mem _ hf, hfk, hl⟩
    · exact .inr hl

/-- An edge may be told. -/
theorem Spread.edge (h : Spread g₀ start es path g) (source target : Node ι α)
    (kind : EdgeKind) : Spread g₀ start (es ++ [.edge source target kind]) path g where
  toHalfway := h.toHalfway.edge source target kind
  begun := by simpa using h.begun
  mem_extent := by simpa using h.mem_extent
  swept := by simpa using h.swept

/-- The next edge may lead to a new node, which is entered. -/
theorem Spread.descend (h : Spread g₀ start es (⟨i, j :: pending⟩ :: path) g)
    (hij : g.Edge i j) (hj : g.nodes[j]? = some target) (hv : target.visit = .undiscovered) :
    Spread g₀ start (es ++ [.enter j ({ target with parent := some i }.enter g.clock)])
      (⟨j, target.neighbors⟩ :: ⟨i, pending⟩ :: path)
      (g.stamp j ({ target with parent := some i }.enter g.clock)) := by
  have hnew₀ : g₀.IsNew j := h.isNew_of_node hj hv
  have hkeep := Graph.grows_enter (n := { target with parent := some i }.enter g.clock)
    hj hv rfl rfl
  have hopen : (g.stamp j ({ target with parent := some i }.enter g.clock)).IsOpen j :=
    .enter hj rfl (.inl rfl)
  rw [Graph.edge_congr h.reset_eq] at hij
  constructor
  · exact h.toHalfway.descend hj hv
  · rw [Event.entries_concat_enter]
    exact List.mem_append_left _ h.begun
  · intro k hk
    rw [Event.entries_concat_enter] at hk
    rcases List.mem_append.mp hk with hk | hk
    · exact h.mem_extent k hk
    · rw [List.mem_singleton.mp hk]
      exact Graph.mem_extent_of_edge (h.mem_extent i h.mem_entries.1) hij hnew₀
  · intro k hk l hkl
    rw [Event.entries_concat_enter] at hk
    rcases List.mem_append.mp hk with hk | hk
    · -- The edge looked at leads to the new node; all others are as before.
      rcases h.swept k hk l hkl with ⟨f, hf, hfk, hl⟩ | hl
      · rcases List.mem_cons.mp hf with rfl | hf
        · rcases List.mem_cons.mp hl with rfl | hl
          · exact .inr hopen.isEntered
          · exact .inl ⟨⟨i, pending⟩, by simp, hfk, hl⟩
        · exact .inl ⟨f, by simp [hf], hfk, hl⟩
      · exact .inr (hkeep.isEntered hl)
    · rw [List.mem_singleton.mp hk] at hkl ⊢
      rw [← Graph.edge_congr h.reset_eq, Graph.Edge, Graph.successors_of_node hj] at hkl
      exact .inl ⟨_, List.mem_cons_self, rfl, hkl⟩

/-- The innermost node may be left when none of its edges is pending. -/
theorem Spread.leave (h : Spread g₀ start es (⟨i, []⟩ :: path) g) (hi : g.nodes[i]? = some n) :
    Spread g₀ start (es ++ [.leave i (n.leave g.clock)]) path
      (g.stamp i (n.leave g.clock)) := by
  have hkeep := Graph.grows_leave hi (h.isOpen i (head_mem_trail ..))
  constructor
  · exact h.toHalfway.leave hi
  · rw [Event.entries_concat_leave]
    exact h.begun
  · rw [Event.entries_concat_leave]
    exact h.mem_extent
  · intro k hk l hkl
    rw [Event.entries_concat_leave] at hk
    rcases h.swept k hk l hkl with ⟨f, hf, hfk, hl⟩ | hl
    · rcases List.mem_cons.mp hf with rfl | hf
      · cases hl
      · exact .inl ⟨f, hf, hfk, hl⟩
    · exact .inr (hkeep.isEntered hl)

private theorem Spread.mem_entries_iff (h : Spread g₀ start es [] g) :
    i ∈ entries es ↔ i ∈ g₀.extent start := by
  constructor
  · exact h.mem_extent i
  · rintro ⟨-, hreach⟩
    induction hreach with
    | refl => exact h.begun
    | @tail k l _ hkl ih =>
      obtain ⟨hedge, hnew⟩ := hkl
      by_contra hl
      -- The target was new and has been entered, so it was entered by this walk.
      have hentered : g.IsEntered l := (h.swept k ih l hedge).resolve_left (by simp)
      rw [Event.mem_entries_iff] at hl
      have hnew' : g.IsNew l := by rwa [Graph.IsNew, Graph.visit?, h.kept l hl]
      exact hnew'.not_isEntered hentered

private theorem Spread.mem_exits_of_mem_entries (h : Spread g₀ start es [] g)
    (hi : i ∈ entries es) :
    i ∈ exits es := by
  have htrail : i ∉ trail [] := by simp [trail]
  rw [h.mem_trail_iff, not_and, not_not, ← Event.mem_entries_iff, ← mem_exits_iff] at htrail
  exact htrail hi

private theorem Spread.not_leadsOut (h : Spread g₀ start es [] g) (j : NodeIndex) :
    ¬ g₀.LeadsOut start j := by
  rintro ⟨hj, i, hi, hij⟩
  have hentered : g.IsEntered j :=
    (h.swept i (h.mem_entries_iff.mpr hi) j hij).resolve_left (by simp)
  obtain ⟨v, hv, -⟩ := hentered
  obtain ⟨n, hn, -⟩ := Option.map_eq_some_iff.mp hv
  have hlt : j < g.size := (g.exists_node_iff j).mp ⟨n, hn⟩
  rw [Graph.size_congr h.reset_eq] at hlt
  exact hlt.not_ge hj

end

/-- A walk goes through and ends with the extent of its start entered, unless an edge of the extent
leads out of the arena. -/
theorem Ahead.spreads {g₀ g : Graph ι α} {start : NodeIndex} {es : List (Event ι α)}
    {path : List Frame} {script : Script ι α} {time : Nat} (h : Ahead g path script)
    (hs : Steady g path) (hp : Spread g₀ start es path g) (hc : Clocked time es g) :
    script.Ensures (fun _ _ _ => True)
      (fun es g fault => fault = none ∧ Spread g₀ start es [] g ∧ Clocked time es g ∨
        ∃ j, fault = some ⟨g₀.size, j⟩ ∧ g₀.LeadsOut start j) es := by
  induction h generalizing es with
  | ended => exact .inl ⟨rfl, hp, hc⟩
  | @lost g i pending path hi =>
    obtain ⟨t, ht⟩ := hs.isOpen i (head_mem_trail ..)
    simp [Graph.visit?, hi] at ht
  | @dangling g i j pending path source hi hj =>
    have hedge := hs.edge
    have hsize := Graph.size_congr hp.reset_eq
    have hle : g.size ≤ j := Array.getElem?_eq_none_iff.mp hj
    rw [Graph.edge_congr hp.reset_eq] at hedge
    rw [hsize] at hle
    exact .inr ⟨j, by rw [hsize], hle, i, hp.mem_extent i hp.mem_entries.1, hedge⟩
  | @leave g i path n rest hi _ ih =>
    obtain ⟨hentered, hnew⟩ := hp.mem_entries
    refine ⟨trivial, ih (hs.pop hi rfl) (hp.leave hi) ?_⟩
    exact hc.leave hi (hs.isOpen i (head_mem_trail ..)) hentered hnew
  | @pass g i j pending path source target rest hi hj hk _ ih =>
    have hv := mt (EdgeKind.between_eq_tree_iff ..).mpr (by rw [hk]; simp)
    exact ih hs.advance (hp.advance ⟨_, Graph.visit?_of_node hj, hv⟩) hc
  | @report g i j pending path source target kind rest hi hj hk ht _ ih =>
    have hv := mt (EdgeKind.between_eq_tree_iff ..).mpr (by rw [hk]; simpa using ht)
    have htold := (hp.advance ⟨_, Graph.visit?_of_node hj, hv⟩).edge source target kind
    exact ⟨trivial, ih hs.advance htold (hc.edge source target kind)⟩
  | @descend g i j pending path source target rest hi hj hv _ ih =>
    have htold := hp.edge source { target with parent := some i } .tree
    have hnew := htold.not_enteredIn hj hv
    rw [← mem_entries_iff] at hnew
    exact ⟨trivial, trivial, ih (hs.advance.push hj hv rfl rfl hs.edge_head)
      (htold.descend hs.edge hj hv) ((hc.edge _ _ _).enter hj hv rfl hnew)⟩

end Walk

namespace Script

private theorem Ensures.imp {P : List (Event ι α) → Event ι α → Graph ι α → Prop}
    {Q Q' : List (Event ι α) → Graph ι α → Option OutOfRange → Prop} {script : Script ι α}
    (hQ : ∀ es g fault, Q es g fault → Q' es g fault) {es : List (Event ι α)}
    (h : script.Ensures P Q es) : script.Ensures P Q' es := by
  induction script generalizing es with
  | ended g fault => exact hQ es g fault h
  | begun start directed rest ih => exact ih h
  | told event g rest ih => exact ⟨h.1, ih h.2⟩

/-- A patient observer is told a script to its end or to its fault. -/
theorem Ensures.close_of_patient {P : List (Event ι α) → Event ι α → Graph ι α → Prop}
    {Q : List (Event ι α) → Graph ι α → Option OutOfRange → Prop} {script : Script ι α}
    (h : script.Ensures P Q []) {o : Observer ι α σ ε} (ho : o.Patient) (s : σ) :
    ∃ fault, (script.perform o s).result = close fault ∧
      Q ((script.calls o s).map Prod.fst) (script.perform o s).graph fault := by
  have hread := h.reading o s
  have hnone := snd_calls_of_patient ho script s
  generalize script.calls o s = calls at hread hnone ⊢
  generalize script.perform o s = r at hread ⊢
  cases hread with
  | through hcalls h => exact ⟨none, rfl, h⟩
  | @faulted _ _ _ fault hcalls h => exact ⟨some fault, rfl, h⟩
  | @stopped before event reason g s hbefore h => cases hnone (event, some reason) (by simp)

/-- A patient observer is told a script without a fault to its end. -/
theorem Ensures.of_patient {P : List (Event ι α) → Event ι α → Graph ι α → Prop}
    {Q : List (Event ι α) → Graph ι α → Prop} {script : Script ι α}
    (h : script.Ensures P (fun es g fault => fault = none ∧ Q es g) []) {o : Observer ι α σ ε}
    (ho : o.Patient) (s : σ) :
    (script.perform o s).result = .ok () ∧
      Q ((script.calls o s).map Prod.fst) (script.perform o s).graph := by
  obtain ⟨fault, hresult, rfl, hQ⟩ := h.close_of_patient ho s
  exact ⟨hresult, hQ⟩

private theorem andThen_ended (script : Script ι α) : script.andThen (.ended · none) = script := by
  induction script with
  | ended g fault => cases fault <;> rfl
  | begun start directed rest ih => simp only [andThen, ih]
  | told event g rest ih => simp only [andThen, ih]

end Script

namespace Graph

/-- What lies ahead of a call from one node is what lies ahead of the walk from there. -/
theorem script_node (g : Graph ι α) (start : NodeIndex) :
    g.script (.node start) = g.scriptFrom start :=
  Script.andThen_ended _

/-- A walk from the graph `g` to the graph `g'` has visited a set of nodes and nothing else. -/
structure Visits (g : Graph ι α) (visited : Set NodeIndex) (es : List (Event ι α))
    (g' : Graph ι α) : Prop where
  finite : visited.Finite
  entered_once : ∀ i ∈ visited, (entries es).count i = 1
  left_once : ∀ i ∈ visited, (exits es).count i = 1
  /-- No other node is entered. -/
  of_mem_entries : ∀ i ∈ entries es, i ∈ visited
  /-- No other node is left. -/
  of_mem_exits : ∀ i ∈ exits es, i ∈ visited
  /-- The visited nodes are finished, with readings of this walk. -/
  finished : ∀ i ∈ visited, ∃ t u, g'.visit? i = some (.finished t u) ∧ g.clock ≤ t ∧ g.clock ≤ u
  clock_eq : g'.clock = g.clock + 2 * visited.ncard
  /-- All other nodes are as they were. -/
  kept : ∀ i ∉ visited, g'.nodes[i]? = g.nodes[i]?

private theorem visits_empty (g : Graph ι α) : g.Visits ∅ [] g := by
  constructor <;> simp [entries, exits]

private theorem visit?_of_readings {g : Graph ι α} {i : NodeIndex} {t u : Nat}
    (ht : g.entrance? i = some t) (hu : g.exit? i = some u) :
    g.visit? i = some (.finished t u) := by
  obtain ⟨t', hv⟩ := (g.exit?_eq_some_iff i u).mp hu
  rw [entrance?, hv] at ht
  cases ht
  exact hv

/-- A walk that is over has visited the extent of its start. -/
theorem visits_of_spread {g g' : Graph ι α} {start : NodeIndex} {es : List (Event ι α)}
    (h : Walk.Spread g start es [] g') (hc : Walk.Clocked g.clock es g') :
    g.Visits (g.extent start) es g' := by
  have hmem (i : NodeIndex) : i ∈ entries es ↔ i ∈ g.extent start := h.mem_entries_iff
  have hleft (i : NodeIndex) : i ∈ exits es ↔ i ∈ entries es :=
    ⟨hc.entered i, h.mem_exits_of_mem_entries⟩
  have hextent : g.extent start = ↑(entries es).toFinset := by
    ext i
    rw [List.coe_toFinset, Set.mem_ofPred_eq, hmem]
  have hlength : (exits es).length = (entries es).length :=
    ((List.perm_ext_iff_of_nodup hc.nodup_exits hc.nodup_entries).mpr hleft).length_eq
  constructor
  · rw [hextent]
    exact Finset.finite_toSet _
  · intro i hi
    exact List.count_eq_one_of_mem hc.nodup_entries ((hmem i).mpr hi)
  · intro i hi
    exact List.count_eq_one_of_mem hc.nodup_exits ((hleft i).mpr ((hmem i).mpr hi))
  · intro i hi
    exact (hmem i).mp hi
  · intro i hi
    exact (hmem i).mp (hc.entered i hi)
  · intro i hi
    have hi : i ∈ entries es := (hmem i).mpr hi
    obtain ⟨t, ht, hle⟩ := hc.entrance i hi
    obtain ⟨u, hu, hle'⟩ := hc.exit i ((hleft i).mpr hi)
    exact ⟨t, u, visit?_of_readings ht hu, hle, hle'⟩
  · rw [hextent, Set.ncard_coe_finset, List.toFinset_card_of_nodup hc.nodup_entries, hc.clock_eq]
    omega
  · intro i hi
    apply h.kept i
    rwa [← mem_entries_iff, hmem]

/-- A walk from a start goes through and visits the extent of the start, or an edge of the extent
leads out of the arena and the walk ends at the first such edge that it looks at. -/
theorem ensures_visits_or_leadsOut {g : Graph ι α} {start : NodeIndex} (hstart : start < g.size) :
    (g.scriptFrom start).Ensures (fun _ _ _ => True)
      (fun es g' fault =>
        fault = none ∧ g.Visits (g.extent start) es g' ∧ (∀ j, ¬ g.LeadsOut start j) ∨
          ∃ j, fault = some ⟨g.size, j⟩ ∧ g.LeadsOut start j) [] := by
  have hb := g.begins_scriptFrom start
  generalize g.scriptFrom start = script at hb
  cases hb with
  | lost hi =>
    obtain ⟨n, hn⟩ := (g.exists_node_iff start).mpr hstart
    rw [hi] at hn
    cases hn
  | @known n hi hv =>
    have hnone : g.extent start = ∅ := extent_of_isEntered ⟨n.visit, visit?_of_node hi, hv⟩
    refine .inl ⟨rfl, ?_, ?_⟩
    · rw [hnone]
      exact g.visits_empty
    · rintro j ⟨-, i, hi', -⟩
      rw [hnone] at hi'
      exact hi'
  | @new n rest hi hv h =>
    have hclocked : Walk.Clocked g.clock [.enter start (n.enter g.clock)]
        (g.stamp start (n.enter g.clock)) :=
      (Walk.clocked_nil g).enter hi hv rfl (by simp [entries])
    refine ⟨trivial, ?_⟩
    have hsteady := (Walk.steady_nil g).push (n := n.enter g.clock) hi hv rfl rfl (by simp)
    have hend := h.spreads hsteady (Walk.spread_start hi hv) hclocked
    refine hend.imp ?_
    rintro es g' fault (⟨hfault, hp, hc⟩ | hout)
    · exact .inl ⟨hfault, visits_of_spread hp hc, hp.not_leadsOut⟩
    · exact .inr hout

/-- A walk from a start goes through and visits the extent of the start, in every graph whose edges
stay in the arena, whatever walks have left there. -/
theorem ensures_visits {g : Graph ι α} (hg : g.Closed) {start : NodeIndex}
    (hstart : start < g.size) :
    (g.scriptFrom start).Ensures (fun _ _ _ => True)
      (fun es g' fault => fault = none ∧ g.Visits (g.extent start) es g') [] := by
  refine (ensures_visits_or_leadsOut hstart).imp ?_
  rintro es g' fault (⟨hfault, hvisits, -⟩ | ⟨j, -, hout⟩)
  · exact ⟨hfault, hvisits⟩
  · exact absurd hout (hg.not_leadsOut start j)

/-- A walk that nobody stops goes through. It visits the nodes that its start leads to through nodes
that have not been entered, and leaves all others alone. -/
theorem visits_extent_walk {g : Graph ι α} (hg : g.Closed) {start : NodeIndex}
    (hstart : start < g.size) {o : Observer ι α σ ε} (ho : o.Patient) (s : σ) :
    (g.walk o s (.node start)).result = .ok () ∧
      g.Visits (g.extent start) (g.events o s (.node start)) (g.walk o s (.node start)).graph := by
  have hend := (ensures_visits hg hstart).of_patient ho s
  rwa [← script_node, ← walk_eq_perform, ← events_eq] at hend

/-- An earlier walk was stopped with one node under way and one finished. The walk passes them by,
although the former leads on to a node that has not been entered. -/
theorem visits_extent_walk_stale :
    let g : Graph String Unit := ⟨#[⟨"app", none, .discovered 0, [3, 1, 4], none⟩,
      ⟨"lib", none, .undiscovered, [0, 2, 3], some 0⟩, ⟨"core", none, .undiscovered, [1, 3], none⟩,
      ⟨"base", none, .finished 1 2, [], some 0⟩, ⟨"tool", none, .undiscovered, [], none⟩],
      ∅, true, 3⟩
    let o : Observer String Unit Unit Unit := .silent
    g.Closed ∧ 1 < g.size ∧ o.Patient ∧ g.extent 1 = {1, 2} ∧
      (g.walk o () (.node 1)).result = .ok () ∧
      g.Visits (g.extent 1) (g.events o () (.node 1)) (g.walk o () (.node 1)).graph := by
  intro g o
  have hg : g.Closed := by decide
  have hstart : 1 < g.size := by decide
  have ho : o.Patient := Observer.patient_silent
  have h := visits_extent_walk hg hstart ho ()
  have hentries : entries (g.events o () (.node 1)) = [1, 2] := by cbv
  refine ⟨hg, hstart, ho, ?_, h⟩
  ext i
  constructor
  · intro hi
    have hmem := List.one_le_count_iff.mp (h.2.entered_once i hi).ge
    simpa [hentries] using hmem
  · intro hi
    apply h.2.of_mem_entries
    simpa [hentries] using hi

end Graph

end Precedence
