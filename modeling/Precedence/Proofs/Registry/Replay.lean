import Mathlib
import Precedence.Proofs.Registry.Representation
import Precedence.Text.CaseFolded

/-!
# Histories that are replayed

A history that is replayed on the registry it has made finds all identifiers and all dependencies
there, so nothing is created or moved, and although it gives all payloads once more, the last one
of each identifier stands in the end. What a graph records and its lookup are all there is to it, so
the registry is the same.
-/

namespace Precedence

variable {ι α : Type} [BEq ι] [Hashable ι]

namespace Graph

/-- The identifiers all have their nodes. -/
def Finds (g : Graph ι α) (as : List ι) : Prop := ∀ a ∈ as, ∃ i, g.find? a = some i

private theorem Finds.congr {g g' : Graph ι α} {as : List ι} (h : g.Finds as)
    (hlookup : g'.lookup = g.lookup) : g'.Finds as := by
  intro a ha
  obtain ⟨i, hi⟩ := h a ha
  refine ⟨i, ?_⟩
  rw [← hi, find?, find?, hlookup]

/-- What a graph records and its lookup determine the graph. -/
theorem Records.ext {g g' : Graph ι α} {ms : List ι} {ds : List (ι × ι)} {ps : List (ι × α)}
    (h : g.Records ms ds ps) (h' : g'.Records ms ds ps) (hlookup : g.lookup = g'.lookup) :
    g = g' := by
  have hfind : g.find? = g'.find? := by
    funext a
    rw [find?, find?, hlookup]
  have hnodes : g.nodes = g'.nodes := by
    have hnames : g.nodes.toList.map (·.id) = g'.nodes.toList.map (·.id) := by
      rw [h.names, h'.names]
    apply Array.toList_inj.mp
    apply List.ext_getElem
    · simpa only [List.length_map] using congrArg List.length hnames
    · intro i hi hi'
      have hn : g.nodes[i]? = some g.nodes.toList[i] := by simp
      have hn' : g'.nodes[i]? = some g'.nodes.toList[i] := by simp
      have hid : g.nodes.toList[i].id = g'.nodes.toList[i].id := by
        have hget := List.getElem_of_eq hnames (i := i) (by simpa using hi)
        rwa [List.getElem_map, List.getElem_map] at hget
      generalize g.nodes.toList[i] = n at hn hid
      generalize g'.nodes.toList[i] = n' at hn' hid
      have hpayload : n.payload = n'.payload := by
        rw [h.payload i n hn, h'.payload i n' hn', hid]
      have hneighbors : n.neighbors = n'.neighbors := by
        apply (h.edges i n hn).unique
        rw [Locates, hfind, hid]
        exact h'.edges i n' hn'
      -- Both nodes are as if no walk had ever come by.
      rw [← h.unvisited i n hn, ← h'.unvisited i n' hn']
      simp only [Node.unvisited, hid, hpayload, hneighbors]
  cases g
  cases g'
  simp only [mk.injEq]
  exact ⟨hnodes, hlookup, h.directed.trans h'.directed.symm, h.clock.trans h'.clock.symm⟩

end Graph

namespace Registry

/-! ### The lookup of a replay -/

section
variable {g : Graph ι α} {r : Registry ι α}

private theorem lookup_link {ids : List ι} (h : g.Finds ids) (i : NodeIndex) :
    (link g i ids).lookup = g.lookup := by
  induction ids generalizing g with
  | nil => rfl
  | cons b ids ih =>
    obtain ⟨j, hj⟩ := h b (by simp)
    have hrest : (g.modify i (·.addNeighbor j)).Finds ids :=
      fun a ha => h a (List.mem_cons_of_mem _ ha)
    rw [link, Graph.intern_of_some hj]
    exact ih hrest

private theorem lookup_addNode {a : ι} (h : r.graph.Finds [a]) (payload : α) :
    (r.addNode a payload).1.graph.lookup = r.graph.lookup := by
  obtain ⟨i, hi⟩ := h a (by simp)
  simp only [addNode, Graph.intern_of_some hi, Graph.modify]

private theorem lookup_addDependencies {a : ι} {ids : List ι} (h : r.graph.Finds (a :: ids)) :
    (r.addDependencies a ids).graph.lookup = r.graph.lookup := by
  obtain ⟨i, hi⟩ := h a (by simp)
  simp only [addDependencies, Graph.intern_of_some hi]
  apply lookup_link
  exact fun b hb => h b (List.mem_cons_of_mem _ hb)

private theorem lookup_addDeclaration {d : Declaration ι α}
    (h : r.graph.Finds (d.id :: d.dependsOn)) :
    (r.addDeclaration d).graph.lookup = r.graph.lookup := by
  have hnode : (r.addNode d.id d.payload).1.graph.lookup = r.graph.lookup :=
    lookup_addNode (fun a ha => h a (by simp_all)) d.payload
  rw [addDeclaration, lookup_addDependencies (h.congr hnode), hnode]

private theorem lookup_extend {decls : List (Declaration ι α)}
    (h : r.graph.Finds (decls.flatMap fun d => d.id :: d.dependsOn)) :
    (r.extend decls).graph.lookup = r.graph.lookup := by
  induction decls generalizing r with
  | nil => rfl
  | cons d decls ih =>
    have hfirst : (r.addDeclaration d).graph.lookup = r.graph.lookup :=
      lookup_addDeclaration fun a ha => h a (List.mem_append_left _ ha)
    have hrest : r.graph.Finds (decls.flatMap fun d => d.id :: d.dependsOn) :=
      fun a ha => h a (List.mem_append_right _ ha)
    exact (ih (hrest.congr hfirst)).trans hfirst

/-- A call that mentions only what is there leaves the lookup as it is. -/
theorem lookup_apply {c : Registration ι α} (h : r.graph.Finds c.mentions) :
    (r.apply c).graph.lookup = r.graph.lookup := by
  cases c with
  | node a payload => exact lookup_addNode h payload
  | dependencies a ids => exact lookup_addDependencies h
  | declaration d => exact lookup_addDeclaration h
  | declarations decls => exact lookup_extend h

/-- So do several calls. -/
theorem lookup_foldl_apply {calls : History ι α} (h : r.graph.Finds calls.mentions) :
    (calls.foldl apply r).graph.lookup = r.graph.lookup := by
  induction calls generalizing r with
  | nil => rfl
  | cons c calls ih =>
    have hfirst : (r.apply c).graph.lookup = r.graph.lookup :=
      lookup_apply fun a ha => h a (List.mem_append_left _ ha)
    have hrest : r.graph.Finds (History.mentions calls) :=
      fun a ha => h a (List.mem_append_right _ ha)
    exact (ih (hrest.congr hfirst)).trans hfirst

end

/-! ### What is said twice -/

section
variable [EquivBEq ι]

omit [Hashable ι] in
private theorem eraseDups_append_self (as : List ι) : (as ++ as).eraseDups = as.eraseDups := by
  apply eraseDups_append_of_contains
  intro a ha
  exact List.contains_iff_exists_mem_beq.mpr ⟨a, ha, BEq.refl a⟩

omit [Hashable ι] in
private theorem targetsOf_append_self (ds : List (ι × ι)) (a : ι) :
    targetsOf (ds ++ ds) a = targetsOf ds a := by
  rw [targetsOf, List.filter_append, List.map_append, eraseDups_append_self, targetsOf]

omit [Hashable ι] [EquivBEq ι] in
private theorem latest_append_self (ps : List (ι × α)) (a : ι) :
    latest (ps ++ ps) a = latest ps a := by
  rw [latest, List.reverse_append, List.find?_append, Option.or_self, latest]

private theorem Represents.of_append_self {r : Registry ι α} {ms : List ι} {ds : List (ι × ι)}
    {ps : List (ι × α)} (h : r.Represents (ms ++ ms) (ds ++ ds) (ps ++ ps)) :
    r.Represents ms ds ps where
  records := {
    h.records with
    names := by rw [h.records.names, eraseDups_append_self]
    edges := by
      intro i n hn
      rw [← targetsOf_append_self]
      exact h.records.edges i n hn
    payload := by
      intro i n hn
      rw [h.records.payload i n hn, latest_append_self]
    declared := fun d hd => h.records.declared d (List.mem_append_left _ hd)
    registered := fun p hp => h.records.registered p (List.mem_append_left _ hp) }
  roots := by
    have hroots := h.roots
    rwa [List.map_append, eraseDups_append_self] at hroots

end

/-- To replay a history changes nothing: the nodes, their order, spellings, payloads and edges, the
lookup, the roots and the options are those of the history, and with them whatever is asked of the
registry. -/
theorem ofHistory_append_self [EquivBEq ι] [LawfulHashable ι] (options : Options)
    (h : History ι α) : ofHistory options (h ++ h) = ofHistory options h := by
  have honce := represents_ofHistory options h
  have htwice := represents_ofHistory options (h ++ h)
  rw [History.mentions_append, History.declares_append, History.registers_append] at htwice
  have hsame := htwice.of_append_self
  have hlookup : (ofHistory options (h ++ h)).graph.lookup = (ofHistory options h).graph.lookup := by
    rw [ofHistory_append]
    apply lookup_foldl_apply
    intro a ha
    rw [honce.records.exists_find?_iff]
    exact List.contains_iff_exists_mem_beq.mpr ⟨a, ha, BEq.refl a⟩
  have hgraph := hsame.records.ext honce.records hlookup
  have hroots : (ofHistory options (h ++ h)).roots = (ofHistory options h).roots := by
    have hlocates := hsame.roots
    rw [hgraph] at hlocates
    exact Array.toList_inj.mp (hlocates.unique honce.roots)
  have hoptions := (options_ofHistory options (h ++ h)).trans (options_ofHistory options h).symm
  generalize ofHistory options (h ++ h) = r at hgraph hroots hoptions
  cases r
  cases hgraph
  cases hroots
  cases hoptions
  rfl

/-- An application is registered twice, in two spellings, around what it depends on. -/
def reregistered : History Text.CaseFolded Nat :=
  [.node ⟨"App"⟩ 1, .dependencies ⟨"app"⟩ [⟨"Lib"⟩, ⟨"net"⟩],
    .declaration ⟨⟨"LIB"⟩, 2, [⟨"Net"⟩, ⟨"NET"⟩]⟩, .node ⟨"APP"⟩ 3]

/-- The replay gives the application its first payload once more before it gives the last, and in
the end leaves spellings, edges, lookup and roots as they were. -/
theorem ofHistory_append_self_reregistered :
    ofHistory .strict (reregistered ++ reregistered) = ofHistory .strict reregistered ∧
      (∀ r ∈ [ofHistory .strict reregistered, ofHistory .strict (reregistered ++ reregistered)],
        r.graph.nodes.toList.map (·.id.spelling) = ["App", "Lib", "net"] ∧
          r.graph.nodes.toList.map (·.neighbors) = [[1, 2], [2], []] ∧
          r.graph.nodes.toList.map (·.payload) = [some 3, some 2, none] ∧
          r.graph.find? ⟨"NET"⟩ = some 2 ∧ r.roots = #[0, 1]) ∧
      (ofHistory .strict (reregistered ++ reregistered.take 1)).graph.nodes.toList.map (·.payload) =
        [some 1, some 2, none] := by
  refine ⟨ofHistory_append_self .strict reregistered, ?_, by cbv⟩
  simp only [List.forall_mem_cons]
  refine ⟨⟨?_, ?_, ?_, ?_, ?_⟩, ⟨?_, ?_, ?_, ?_, ?_⟩, by simp⟩ <;> cbv

end Registry

end Precedence
