import Precedence.Proofs.Graph.Forest
import Precedence.Proofs.Registry.Records
import Precedence.Traversal.Operation

/-!
# Operations that leave the marks alone

Growing a graph, choosing its mode and editing payloads neither touch a mark nor move the clock, and
they take away no edge. `Graph.Widens` says so of any two graphs; walking and forgetting all walks are
the only other operations.
-/

namespace Precedence

variable {ι α : Type}

/-- The clock readings of a node, its entry first. -/
def Node.readings (n : Node ι α) : List Nat := n.entryTime?.toList ++ n.exitTime?.toList

/-- A change of nodes that keeps their marks and takes away no edge. -/
structure Node.Extends (f : Node ι α → Node ι α) : Prop where
  visit : ∀ n, (f n).visit = n.visit
  parent : ∀ n, (f n).parent = n.parent
  neighbors : ∀ n, n.neighbors ⊆ (f n).neighbors

private theorem Node.Extends.of_eq {f : Node ι α → Node ι α} (hvisit : ∀ n, (f n).visit = n.visit)
    (hparent : ∀ n, (f n).parent = n.parent) (hneighbors : ∀ n, (f n).neighbors = n.neighbors) :
    Extends f where
  visit := hvisit
  parent := hparent
  neighbors n := by
    rw [hneighbors n]
    exact List.Subset.refl _

/-- Adding an edge keeps all others. -/
theorem Node.extends_addNeighbor (target : NodeIndex) :
    Extends fun n : Node ι α => n.addNeighbor target where
  visit n := by
    unfold addNeighbor
    split <;> rfl
  parent n := by
    unfold addNeighbor
    split <;> rfl
  neighbors n i hi := (n.mem_neighbors_addNeighbor target i).mpr (.inl hi)

/-- The operation neither walks nor forgets walks. -/
def Operation.Quiet : Operation ι α → Prop
  | .walk .. | .reset => False
  | _ => True

namespace Graph

variable [BEq ι] [Hashable ι]

/-- The clock readings of all nodes. -/
def readings (g : Graph ι α) : List Nat := g.nodes.toList.flatMap Node.readings

/-- From `g` to `g'` nodes and edges may be added, and payloads and the mode may change. The marks
stay, and so does the clock. -/
structure Widens (g g' : Graph ι α) : Prop where
  edge : ∀ i j, g.Edge i j → g'.Edge i j
  entrance?_eq : g'.entrance? = g.entrance?
  exit?_eq : g'.exit? = g.exit?
  parent?_eq : g'.parent? = g.parent?
  readings_eq : g'.readings = g.readings
  clock_eq : g'.clock = g.clock

namespace Widens

variable {g g' : Graph ι α}

private theorem refl (g : Graph ι α) : g.Widens g := ⟨fun _ _ h => h, rfl, rfl, rfl, rfl, rfl⟩

/-- The nodes that have been entered are the same. -/
theorem isEntered_iff (h : g.Widens g') (i : NodeIndex) : g'.IsEntered i ↔ g.IsEntered i := by
  rw [g'.isEntered_iff, g.isEntered_iff, h.entrance?_eq]

theorem elder_eq (h : g.Widens g') : g'.Elder = g.Elder := by
  funext i j
  rw [Elder, Elder, h.entrance?_eq]

end Widens

/-- The mode may be chosen. -/
theorem widens_setDirected (g : Graph ι α) (directed : Bool) :
    g.Widens (g.setDirected directed) :=
  ⟨fun _ _ h => h, rfl, rfl, rfl, rfl, rfl⟩

/-- A node may be changed in its payload, and edges may be added to it. -/
theorem widens_modify (g : Graph ι α) (i : NodeIndex) {f : Node ι α → Node ι α}
    (hf : Node.Extends f) : g.Widens (g.modify i f) := by
  have hvisit : (g.modify i f).visit? = g.visit? := funext (map_modify Node.visit hf.visit)
  constructor
  · intro k l hkl
    cases hk : g.nodes[k]? with
    | none => simp [Edge, successors, hk] at hkl
    | some n =>
      rw [Edge, successors_of_node hk] at hkl
      simp only [Edge, successors, modify, Array.getElem?_modify, hk]
      split
      · exact hf.neighbors n hkl
      · exact hkl
  · exact entrance?_congr hvisit
  · exact exit?_congr hvisit
  · funext k
    exact congrArg Option.join (map_modify Node.parent hf.parent k)
  · have hnode : ∀ n, (f n).readings = n.readings := by
      intro n
      simp only [Node.readings, Node.entryTime?, Node.exitTime?, hf.visit]
    have hmap : (g.modify i f).nodes.toList.map Node.readings =
        g.nodes.toList.map Node.readings := by
      apply List.ext_getElem?
      intro k
      simpa using map_modify Node.readings hnode k
    simp only [readings, List.flatMap_def, hmap]
  · rfl

/-- An identifier may be interned. -/
theorem widens_intern (g : Graph ι α) (id : ι) : g.Widens (g.intern id).1 := by
  cases hfind : g.find? id with
  | some i =>
    rw [intern_of_some hfind]
    exact .refl g
  | none =>
    rw [intern_of_none hfind]
    -- The new node has nothing that could not be seen past the end of the arena before.
    have hnode (k : NodeIndex) :
        (g.nodes.push { id := id })[k]? = g.nodes[k]? ∨
          g.nodes[k]? = none ∧ (g.nodes.push { id := id })[k]? = some { id := id } := by
      rw [Array.getElem?_push]
      split
      · next hk =>
        right
        simp [hk]
      · exact .inl rfl
    constructor
    · intro k l hkl
      simp only [Edge, successors] at hkl ⊢
      rcases hnode k with hk | ⟨hk, hnew⟩
      · rwa [hk]
      · simp [hk] at hkl
    · funext k
      simp only [entrance?, visit?]
      rcases hnode k with hk | ⟨hk, hnew⟩
      · rw [hk]
      · simp [hk, hnew, Visit.entryTime?]
    · funext k
      simp only [exit?, visit?]
      rcases hnode k with hk | ⟨hk, hnew⟩
      · rw [hk]
      · simp [hk, hnew, Visit.exitTime?]
    · funext k
      simp only [parent?]
      rcases hnode k with hk | ⟨hk, hnew⟩
      · rw [hk]
      · simp [hk, hnew]
    · simp [readings, Node.readings, Node.entryTime?, Node.exitTime?, Visit.entryTime?,
        Visit.exitTime?]
    · rfl

/-- All but walking and forgetting walks leaves the marks alone. -/
theorem widens_apply (g : Graph ι α) {op : Operation ι α} (h : op.Quiet) :
    g.Widens (g.apply op) := by
  cases op with
  | intern id => exact g.widens_intern id
  | addEdge source target =>
    rw [apply_addEdge]
    exact g.widens_modify source (Node.extends_addNeighbor target)
  | setDirected directed => exact g.widens_setDirected directed
  | setPayload i payload =>
    rw [apply_setPayload]
    exact g.widens_modify i (.of_eq (fun _ => rfl) (fun _ => rfl) fun _ => rfl)
  | takePayload i =>
    rw [apply_takePayload]
    exact g.widens_modify i (.of_eq (fun _ => rfl) (fun _ => rfl) fun _ => rfl)
  | updatePayload i f =>
    rw [apply_updatePayload]
    exact g.widens_modify i (.of_eq (fun _ => rfl) (fun _ => rfl) fun _ => rfl)
  | walk o s c => exact absurd h (by simp [Operation.Quiet])
  | reset => exact absurd h (by simp [Operation.Quiet])

end Graph

end Precedence
