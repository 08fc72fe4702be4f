import Mathlib.Data.List.Forall2
import Mathlib.Logic.Relator
import Precedence.Proofs.Graph.Marks
import Precedence.Proofs.Traversal.Reading

/-!
# Renumbered graphs

Two graphs may hold the same nodes under different indices and with their identifiers spelled
differently. As long as the edges of each node are in the same order, walks from the same nodes go
the same way in both: the indices and spellings that an observer is told are the only difference,
and an observer that does not mind them ends up the same.
-/

namespace Precedence

variable {ι α σ ε : Type} [BEq ι] {R : NodeIndex → NodeIndex → Prop} {i j : NodeIndex}

/-! ### Nodes -/

/-- The nodes are the same, but for indices and the spelling of the identifier. -/
structure Node.Alike (R : NodeIndex → NodeIndex → Prop) (m n : Node ι α) : Prop where
  id : m.id == n.id
  payload : m.payload = n.payload
  visit : m.visit = n.visit
  neighbors : List.Forall₂ R m.neighbors n.neighbors
  parent : Option.Rel R m.parent n.parent

namespace Node.Alike

variable {m n : Node ι α} (h : m.Alike R n)
include h

private theorem enter {t u : Nat} (htu : t = u) : (m.enter t).Alike R (n.enter u) where
  id := h.id
  payload := h.payload
  visit := congrArg Visit.discovered htu
  neighbors := h.neighbors
  parent := h.parent

private theorem leave {t u : Nat} (htu : t = u) : (m.leave t).Alike R (n.leave u) where
  id := h.id
  payload := h.payload
  visit := congrArg₂ Visit.close h.visit htu
  neighbors := h.neighbors
  parent := h.parent

private theorem adopt (hij : R i j) :
    ({ m with parent := some i } : Node ι α).Alike R { n with parent := some j } where
  id := h.id
  payload := h.payload
  visit := h.visit
  neighbors := h.neighbors
  parent := .some hij

end Node.Alike

private theorem EdgeKind.between_alike (hR : Relator.BiUnique R) (directed : Bool)
    {source source' target target' : Node ι α} (hs : source.Alike R source')
    (ht : target.Alike R target') (hij : R i j) :
    between directed source i target = between directed source' j target' := by
  have hparent : (source.parent == some i) = (source'.parent == some j) := by
    have hrel := hs.parent
    generalize source.parent = p, source'.parent = q at hrel
    cases hrel with
    | none => rfl
    | @some a b hab =>
      rw [Bool.eq_iff_iff]
      simpa using Relator.rel_eq hR hab hij
  rw [between, ht.visit, hparent, Node.entryTime?, hs.visit]
  rfl

/-! ### Graphs and paths -/

variable [Hashable ι]

/-- Related indices are those of alike nodes. -/
structure Graph.Alike (R : NodeIndex → NodeIndex → Prop) (g k : Graph ι α) : Prop where
  node : ∀ i j, R i j → ∃ m n, g.nodes[i]? = some m ∧ k.nodes[j]? = some n ∧ m.Alike R n
  directed : g.directed = k.directed
  clock : g.clock = k.clock

namespace Graph.Alike

variable {g k : Graph ι α} (h : g.Alike R k)
include h

private theorem exists_node (hij : R i j) {m : Node ι α} (hm : g.nodes[i]? = some m) :
    ∃ n, k.nodes[j]? = some n ∧ m.Alike R n := by
  obtain ⟨m', n, hm', hn, hmn⟩ := h.node i j hij
  rw [hm] at hm'
  cases hm'
  exact ⟨n, hn, hmn⟩

private theorem write (hR : Relator.BiUnique R) (hij : R i j) {m n : Node ι α}
    (hmn : m.Alike R n) {g' k' : Graph ι α}
    (hg' : ∀ a, g'.nodes[a]? = if i = a then some m else g.nodes[a]?)
    (hk' : ∀ b, k'.nodes[b]? = if j = b then some n else k.nodes[b]?)
    (hdirected : g'.directed = k'.directed) (hclock : g'.clock = k'.clock) : g'.Alike R k' := by
  refine ⟨?_, hdirected, hclock⟩
  intro a b hab
  have hiff : i = a ↔ j = b := Relator.rel_eq hR hij hab
  rw [hg', hk']
  by_cases hia : i = a
  · rw [if_pos hia, if_pos (hiff.mp hia)]
    exact ⟨m, n, rfl, rfl, hmn⟩
  · rw [if_neg hia, if_neg (mt hiff.mpr hia)]
    exact h.node a b hab

private theorem stamp (hR : Relator.BiUnique R) (hij : R i j) {m n : Node ι α} (hmn : m.Alike R n) :
    (g.stamp i m).Alike R (k.stamp j n) := by
  obtain ⟨m', n', hm, hn, -⟩ := h.node i j hij
  exact h.write hR hij hmn (getElem?_stamp hm m) (getElem?_stamp hn n) h.directed
    (congrArg Nat.succ h.clock)

private theorem put (hR : Relator.BiUnique R) (hij : R i j) {m n : Node ι α} (hmn : m.Alike R n) :
    (g.put i m).Alike R (k.put j n) := by
  obtain ⟨m', n', hm, hn, -⟩ := h.node i j hij
  exact h.write hR hij hmn (getElem?_put hm m) (getElem?_put hn n) h.directed h.clock

end Graph.Alike

/-- The frames stand on related nodes and have related nodes to look at. -/
structure Frame.Alike (R : NodeIndex → NodeIndex → Prop) (f f' : Frame) : Prop where
  index : R f.index f'.index
  pending : List.Forall₂ R f.pending f'.pending

omit [BEq ι] [Hashable ι] in
private theorem Frame.exists_edge_of_alike {pending : List NodeIndex} {path path' : List Frame}
    (h : List.Forall₂ (Frame.Alike R) (⟨i, j :: pending⟩ :: path) path') :
    ∃ i' j' pending' rest, path' = ⟨i', j' :: pending'⟩ :: rest ∧ R i i' ∧ R j j' ∧
      List.Forall₂ (Frame.Alike R) (⟨i, pending⟩ :: path) (⟨i', pending'⟩ :: rest) := by
  obtain ⟨⟨i', _⟩, rest, ⟨hii, hall⟩, hrest, rfl⟩ := List.forall₂_cons_left_iff.mp h
  obtain ⟨j', pending', hjj, hpending, rfl⟩ := List.forall₂_cons_left_iff.mp hall
  exact ⟨i', j', pending', rest, rfl, hii, hjj, .cons ⟨hii, hpending⟩ hrest⟩

/-! ### Scripts -/

omit [Hashable ι] in
/-- The events tell of alike nodes at related indices. -/
inductive Event.Alike (R : NodeIndex → NodeIndex → Prop) : Event ι α → Event ι α → Prop where
  | enter {i j : NodeIndex} {m n : Node ι α} (hij : R i j) (hmn : m.Alike R n) :
      Alike R (.enter i m) (.enter j n)
  | edge {source source' target target' : Node ι α} {kind : EdgeKind}
      (hs : source.Alike R source') (ht : target.Alike R target') :
      Alike R (.edge source target kind) (.edge source' target' kind)
  | leave {i j : NodeIndex} {m n : Node ι α} (hij : R i j) (hmn : m.Alike R n) :
      Alike R (.leave i m) (.leave j n)

/-- The scripts tell alike events, over alike graphs, and end without a fault. -/
inductive Script.Alike (R : NodeIndex → NodeIndex → Prop) : Script ι α → Script ι α → Prop where
  | ended {g k : Graph ι α} (h : g.Alike R k) : Alike R (.ended g none) (.ended k none)
  | begun {i j : NodeIndex} {directed : Bool} {rest rest' : Script ι α} (hij : R i j)
      (h : Alike R rest rest') : Alike R (.begun i directed rest) (.begun j directed rest')
  | told {event event' : Event ι α} {g k : Graph ι α} {rest rest' : Script ι α}
      (he : event.Alike R event') (hg : g.Alike R k) (h : Alike R rest rest') :
      Alike R (.told event g rest) (.told event' k rest')

/-- What lies ahead on alike paths in alike graphs is alike. -/
theorem Walk.Ahead.exists_alike (hR : Relator.BiUnique R) {g k : Graph ι α}
    {path path' : List Frame} {script : Script ι α} (h : Ahead g path script) (hg : g.Alike R k)
    (hpath : List.Forall₂ (Frame.Alike R) path path') :
    ∃ script', Ahead k path' script' ∧ script.Alike R script' := by
  induction h generalizing k path' with
  | ended =>
    cases hpath
    exact ⟨_, .ended, .ended hg⟩
  | lost hi =>
    obtain ⟨f', path', hf, -, rfl⟩ := List.forall₂_cons_left_iff.mp hpath
    obtain ⟨m, -, hm, -⟩ := hg.node _ _ hf.index
    rw [hm] at hi
    cases hi
  | dangling _ hj =>
    obtain ⟨_, j', _, _, -, -, hjj, -⟩ := Frame.exists_edge_of_alike hpath
    obtain ⟨m, -, hm, -⟩ := hg.node _ j' hjj
    rw [hm] at hj
    cases hj
  | @leave g i path n rest hi _ ih =>
    obtain ⟨⟨i', pending'⟩, path', ⟨hii, hpending⟩, hrest, rfl⟩ :=
      List.forall₂_cons_left_iff.mp hpath
    cases hpending
    obtain ⟨n', hi', hn⟩ := hg.exists_node hii hi
    have hleft := hn.leave hg.clock
    have hstamp := hg.stamp hR hii hleft
    obtain ⟨rest', hahead, halike⟩ := ih hstamp hrest
    exact ⟨_, .leave hi' hahead, .told (.leave hii hleft) hstamp halike⟩
  | @pass g i j pending path source target rest hi hj hk _ ih =>
    obtain ⟨i', j', pending', path', rfl, hii, hjj, hrest⟩ := Frame.exists_edge_of_alike hpath
    obtain ⟨source', hi', hs⟩ := hg.exists_node hii hi
    obtain ⟨target', hj', ht⟩ := hg.exists_node hjj hj
    rw [EdgeKind.between_alike hR g.directed hs ht hjj, hg.directed] at hk
    obtain ⟨rest', hahead, halike⟩ := ih hg hrest
    exact ⟨rest', .pass hi' hj' hk hahead, halike⟩
  | @report g i j pending path source target kind rest hi hj hk hkind _ ih =>
    obtain ⟨i', j', pending', path', rfl, hii, hjj, hrest⟩ := Frame.exists_edge_of_alike hpath
    obtain ⟨source', hi', hs⟩ := hg.exists_node hii hi
    obtain ⟨target', hj', ht⟩ := hg.exists_node hjj hj
    rw [EdgeKind.between_alike hR g.directed hs ht hjj, hg.directed] at hk
    obtain ⟨rest', hahead, halike⟩ := ih hg hrest
    exact ⟨_, .report hi' hj' hk hkind hahead, .told (.edge hs ht) hg halike⟩
  | @descend g i j pending path source target rest hi hj hv _ ih =>
    obtain ⟨i', j', pending', path', rfl, hii, hjj, hrest⟩ := Frame.exists_edge_of_alike hpath
    obtain ⟨source', hi', hs⟩ := hg.exists_node hii hi
    obtain ⟨target', hj', ht⟩ := hg.exists_node hjj hj
    have hchild := ht.adopt hii
    have hentered := hchild.enter hg.clock
    have hstamp := hg.stamp hR hjj hentered
    have hframe : (Frame.mk j target.neighbors).Alike R ⟨j', target'.neighbors⟩ :=
      ⟨hjj, ht.neighbors⟩
    obtain ⟨rest', hahead, halike⟩ := ih hstamp (.cons hframe hrest)
    exact ⟨_, .descend hi' hj' (ht.visit ▸ hv) hahead,
      .told (.edge hs hchild) (hg.put hR hjj hchild) (.told (.enter hjj hentered) hstamp halike)⟩

private theorem Graph.Begins.exists_alike (hR : Relator.BiUnique R) {g k : Graph ι α}
    {script : Script ι α} (h : g.Begins i script) (hg : g.Alike R k) (hij : R i j) :
    ∃ script', k.Begins j script' ∧ script.Alike R script' := by
  cases h with
  | lost hi =>
    obtain ⟨m, -, hm, -⟩ := hg.node i j hij
    rw [hm] at hi
    cases hi
  | known hi hv =>
    obtain ⟨n', hj, hn⟩ := hg.exists_node hij hi
    exact ⟨_, .known hj (hn.visit ▸ hv), .ended hg⟩
  | @new n rest hi hv hahead =>
    obtain ⟨n', hj, hn⟩ := hg.exists_node hij hi
    have hentered := hn.enter hg.clock
    have hstamp := hg.stamp hR hij hentered
    have hframe : (Frame.mk i n.neighbors).Alike R ⟨j, n'.neighbors⟩ := ⟨hij, hn.neighbors⟩
    obtain ⟨rest', hahead', halike⟩ := hahead.exists_alike hR hstamp (.cons hframe .nil)
    refine ⟨_, .new hj (hn.visit ▸ hv) hahead', ?_⟩
    rw [hg.directed]
    exact .begun hij (.told (.enter hij hentered) hstamp halike)

/-! ### Observers -/

section
variable {S : σ → σ → Prop} {E : ε → ε → Prop}

omit [Hashable ι] in
/-- The observer keeps states that `S` relates, and gives reasons that `E` relates, when it is told of
alike events. -/
structure Observer.Respects (R : NodeIndex → NodeIndex → Prop) (S : σ → σ → Prop)
    (E : ε → ε → Prop) (o : Observer ι α σ ε) : Prop where
  start : ∀ i j directed s t, R i j → S s t → S (o.start i directed s) (o.start j directed t)
  notice : ∀ (event event' : Event ι α) (s t : σ), event.Alike R event' → S s t →
    S (o.notice event s).1 (o.notice event' t).1 ∧
      Option.Rel E (o.notice event s).2 (o.notice event' t).2

/-- The walks leave alike graphs and related states of the observer, and both go through or are both
stopped for related reasons. -/
inductive Outcome.Alike (R : NodeIndex → NodeIndex → Prop) (S : σ → σ → Prop)
    (E : ε → ε → Prop) : Outcome ι α σ ε → Outcome ι α σ ε → Prop where
  | ok {g k : Graph ι α} {s t : σ} (hg : g.Alike R k) (hs : S s t) :
      Alike R S E ⟨g, s, .ok ()⟩ ⟨k, t, .ok ()⟩
  | stopped {g k : Graph ι α} {s t : σ} {x y : ε} (hg : g.Alike R k) (hs : S s t)
      (hxy : E x y) :
      Alike R S E ⟨g, s, .error (.stopped x)⟩ ⟨k, t, .error (.stopped y)⟩

/-- When one of two alike walks goes through, so does the other. -/
theorem Outcome.Alike.of_ok {r q : Outcome ι α σ ε} (h : r.Alike R S E q)
    (hok : q.result = .ok ()) : r.result = .ok () ∧ r.graph.Alike R q.graph := by
  cases h with
  | ok hg => exact ⟨rfl, hg⟩
  | stopped => cases hok

variable {o : Observer ι α σ ε} (ho : o.Respects R S E) {s t : σ}
include ho

/-- Alike scripts are read to such an observer with alike outcomes. -/
theorem Script.Alike.perform {script script' : Script ι α} (h : script.Alike R script')
    (hs : S s t) : (script.perform o s).Alike R S E (script'.perform o t) := by
  induction h generalizing s t with
  | ended hg => exact .ok hg hs
  | begun hij _ ih => exact ih (ho.start _ _ _ s t hij hs)
  | @told event event' g k rest rest' he hg _ ih =>
    obtain ⟨hstate, hreason⟩ := ho.notice event event' s t he hs
    rw [Script.perform, Script.perform]
    generalize o.notice event s = answer, o.notice event' t = answer' at hstate hreason
    obtain ⟨s', reason⟩ := answer
    obtain ⟨t', reason'⟩ := answer'
    cases hreason with
    | none => exact ih hstate
    | some hxy => exact .stopped hg hstate hxy

namespace Graph.Alike

variable (hR : Relator.BiUnique R) {g k : Graph ι α} (hg : g.Alike R k)
include hR hg

/-- Walks from alike starts in alike graphs have alike outcomes. -/
theorem walkFrom (hij : R i j) (hs : S s t) :
    (g.walkFrom o s i).Alike R S E (k.walkFrom o t j) := by
  have hbegins := g.begins_scriptFrom i
  obtain ⟨script', hbegins', halike⟩ := hbegins.exists_alike hR hg hij
  rw [hbegins.walkFrom_eq, hbegins'.walkFrom_eq]
  exact halike.perform ho hs

/-- Walks from several starts in turn have alike outcomes. -/
theorem walkEach {is js : List NodeIndex} (hij : List.Forall₂ R is js) (hs : S s t) :
    (g.walkEach o s is).Alike R S E (k.walkEach o t js) := by
  induction hij generalizing g k s t with
  | nil => exact .ok hg hs
  | cons hij _ ih =>
    have hfirst := hg.walkFrom ho hR hij hs
    rw [Graph.walkEach, Graph.walkEach]
    generalize g.walkFrom o s _ = r, k.walkFrom o t _ = r' at hfirst
    cases hfirst with
    | ok hg hs => exact ih hg hs
    | stopped hg hs hxy => exact .stopped hg hs hxy

end Graph.Alike

end

end Precedence
