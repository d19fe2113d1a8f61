import WeightedGraph.Proofs.Config.Language
import WeightedGraph.Proofs.Graph.Shape

/-!
# Configurations of graphs

The document that is written for a configuration is one that describes it (`isDocument_toJson`), so that reading gives
the configuration back, for any vertex count that can be written down, or says that there are no vertices
(`ofJson_toJson`).  The configuration of a graph says how the graph came to be: it has the vertices and the kind that
the graph was made with and the representation that was last asked for and could be had, and with enough memory any that
is asked for can be had.  It can always be written and read back, and what is built from it, where there is memory, is a
graph without edges that has the same configuration (`config_round_trips`).
-/

namespace WeightedGraph

namespace Json

/-- Tokens may be written without blanks. -/
theorem Begins.unspaced {t : Token} {ts : List Token} {w cs rest : List Char} (hw : t.Written w)
    (h : Begins cs ts rest) : Begins (w ++ cs) (t :: ts) rest :=
  .cons (List.forall_mem_nil _) hw h

theorem Begins.mark {c : Char} {hc : c ∈ marks} {ts : List Token} {cs rest : List Char} (h : Begins cs ts rest) :
    Begins (c :: cs) (.mark c hc :: ts) rest :=
  Begins.unspaced .mark h

/-- Characters that need no escape may stand for themselves. -/
theorem spellings_self {cs : List Char} (h : ∀ c ∈ cs, ' ' ≤ c ∧ c ≠ '"' ∧ c ≠ '\\') : Spellings cs cs := by
  induction cs with
  | nil => exact .nil
  | cons c cs ih =>
    rw [List.forall_mem_cons] at h
    obtain ⟨⟨hspace, hquote, hbackslash⟩, hcs⟩ := h
    exact .cons (.plain hspace hquote hbackslash) (ih hcs)

theorem written_nameToJson {name : String} (h : ∀ c ∈ name.toList, ' ' ≤ c ∧ c ≠ '"' ∧ c ≠ '\\') :
    Token.Written (.string name) (nameToJson name).toList := by
  have hquoted : (nameToJson name).toList = '"' :: (name.toList ++ ['"']) := by
    rw [nameToJson, String.toList_append, String.toList_append]
    rfl
  rw [hquoted]
  exact .string (spellings_self h)

theorem written_toString (n : Nat) : Token.Written (.count n) (toString n).toList := by
  rw [Nat.toString_eq_repr, Nat.repr, String.toList_ofList]
  exact .count n

end Json

namespace GraphConfig

open Json

variable {c : GraphConfig}

theorem Field.written_name (f : Field) : Token.Written (.string f.name) (nameToJson f.name).toList := by
  refine written_nameToJson ?_
  cases f <;> simp [Field.name]

theorem written_kind (k : GraphKind) : Token.Written (.string k.name) k.toJson.toList := by
  refine written_nameToJson ?_
  cases k <;> simp [GraphKind.name]

theorem written_representation (r : Representation) : Token.Written (.string r.name) r.toJson.toList := by
  refine written_nameToJson ?_
  cases r <;> simp [Representation.name]

/-- The tokens of a field with a value of one token. -/
def Field.tokens (f : Field) (value : Token) : List Token := [.string f.name, .mark ':', value]

theorem begins_member (f : Field) {t : Token} {ts : List Token} {w cs rest : List Char} (hw : t.Written w)
    (h : Begins cs ts rest) : Begins ((nameToJson f.name).toList ++ ':' :: (w ++ cs)) (f.tokens t ++ ts) rest :=
  .unspaced f.written_name (.mark (.unspaced hw h))

/-- The tokens of the fields of a configuration, as they are written. -/
def fieldTokens (c : GraphConfig) : List Token :=
  Field.vertexCount.tokens (.count c.vertexCount) ++ Token.mark ',' ::
    (Field.kind.tokens (.string c.kind.name) ++ Token.mark ',' ::
      Field.representation.tokens (.string c.representation.name))

theorem begins_toJson (c : GraphConfig) :
    Begins c.toJson.toList (.mark '\x7b' :: (c.fieldTokens ++ [.mark '\x7d'])) [] := by
  have hwritten : c.toJson.toList = '\x7b' ::
      ((nameToJson Field.vertexCount.name).toList ++ ':' :: ((toString c.vertexCount).toList ++ ',' ::
        ((nameToJson Field.kind.name).toList ++ ':' :: (c.kind.toJson.toList ++ ',' ::
          ((nameToJson Field.representation.name).toList ++ ':' ::
            (c.representation.toJson.toList ++ ['\x7d'])))))) := by
    simp [toJson]
  rw [hwritten]
  refine .mark (begins_member .vertexCount (written_toString _) ?_)
  refine .mark (begins_member .kind (written_kind _) ?_)
  refine .mark (begins_member .representation (written_representation _) ?_)
  exact .mark .nil

/-- What is written for a configuration is a document that describes it. -/
theorem isDocument_toJson (h : c.vertexCount < 2 ^ 64) : IsDocument c.toJson c := by
  refine ⟨[.vertexCount c.vertexCount, .kind c.kind, .representation c.representation], _, [], ?_, ?_, c.begins_toJson,
    List.forall_mem_nil _⟩
  · refine .object (by simp [Entry.field]) (.cons ?_ (.cons ?_ (.last ?_)))
    · exact .intro (.vertexCount h)
    · exact .intro (.kind .plain)
    · exact .intro (.representation .plain)
  · exact ⟨by simp, .inl (by simp), .inl (by simp)⟩

/-- What is written for a configuration is read as that configuration, which needs a vertex. -/
theorem ofJson_toJson (h : c.vertexCount < 2 ^ 64) :
    ofJson c.toJson = if c.vertexCount = 0 then .error .zeroVertices else .ok c :=
  ofJson_of_ok (readDocument_eq_ok_iff_isDocument.2 (isDocument_toJson h))

end GraphConfig

namespace Graph

variable {n : Nat} {g : Graph n}

theorem toList_edges_of_create {kind : GraphKind} {r : Representation} (hg : (create n kind r).result = .ok g) :
    g.edges.toList = [] := by
  rw [List.eq_nil_iff_forall_not_mem]
  intro e he
  rw [mem_edges_iff (Reachable.create hg).distinct] at he
  obtain ⟨hu, hv⟩ := lt_of_findEdgeWeight he
  rw [(represents_empty hg).findEdgeWeight, if_pos ⟨hu, hv⟩, Finmap.lookup_empty] at he
  contradiction

/-- Where there is memory, a graph is built that has the shape and no edges. -/
theorem exists_build_config {a : Adjacency n} (hn : n ≠ 0) (ha : Adjacency.allocate n g.representation = .ok a) :
    ∃ fresh : Graph n, g.config.build.result = .ok fresh ∧ fresh.config = g.config ∧ fresh.edgeCount = 0 ∧
      fresh.edges.toList = [] := by
  have hbuilt : (create n g.kind g.representation).result = .ok ⟨g.kind, a, 0⟩ := by
    rw [create_eq, if_neg hn, ha]
    rfl
  refine ⟨_, hbuilt, ?_, rfl, toList_edges_of_create hbuilt⟩
  rw [config, (shape_of_create hbuilt).2]
  rfl

/-- A configuration is read back from its document; that of a graph says how the graph came to be, and what is built
from it is a graph without edges that has it again. -/
theorem config_round_trips :
    (∀ c : GraphConfig, c.vertexCount < 2 ^ 64 →
      GraphConfig.ofJson c.toJson = if c.vertexCount = 0 then .error .zeroVertices else .ok c) ∧
    ∀ {n : Nat} {g : Graph n}, g.Reachable →
      0 < n ∧ n < 2 ^ 64 ∧ g.HasHistory ∧
      (∀ kind r (start : Graph n) os had, start.Constructed kind r → start.operateAll os = (had, g) →
        g.config = ⟨n, kind, had.getLast?.getD r⟩ ∧
        ((∀ r, ∃ empty : Graph n, (create n kind r).result = .ok empty) →
          had = os.filterMap Operation.representation?)) ∧
      GraphConfig.ofJson g.config.toJson = .ok g.config ∧
      ∀ a, Adjacency.allocate n g.representation = .ok a →
        ∃ fresh : Graph n, g.config.build.result = .ok fresh ∧ fresh.config = g.config ∧ fresh.edgeCount = 0 ∧
          fresh.edges.toList = [] := by
  refine ⟨fun c hc => GraphConfig.ofJson_toJson hc, ?_⟩
  intro n g hg
  have hpos : 0 < n := hg.vertexCount_pos
  refine ⟨hpos, hg.vertexCount_lt, hg.hasHistory, ?_, ?_, fun a ha => exists_build_config (by omega) ha⟩
  · intro kind r start os had hstart hhad
    obtain ⟨rfl, rfl⟩ := hstart.shape
    obtain ⟨hkind, hr⟩ := start.shape_operateAll os
    rw [hhad] at hkind hr
    refine ⟨?_, fun hmemory => ?_⟩
    · rw [config, hkind, hr]
    · rw [← fst_operateAll hmemory os, hhad]
  · have hconfig : g.config.vertexCount ≠ 0 := Nat.ne_of_gt hpos
    rw [GraphConfig.ofJson_toJson hg.vertexCount_lt, if_neg hconfig]

/-- A graph that has become a matrix and been copied says so, and says it again from its document. -/
theorem config_round_trips_matrix :
    let start : Graph 3 := ⟨.undirected, .rows (.empty 3), 0⟩
    let os := [.change (.addEdge 2 0 2.5), .convert .adjacencyMatrix, .change (.removeEdge 0 1), .copy .adjacencyMatrix]
    let g := (start.operateAll os).2
    GraphConfig.ofJson (⟨2 ^ 64 - 1, .directed, .adjacencyList⟩ : GraphConfig).toJson =
      .ok ⟨2 ^ 64 - 1, .directed, .adjacencyList⟩ ∧
    GraphConfig.ofJson (⟨0, .directed, .adjacencyMatrix⟩ : GraphConfig).toJson = .error .zeroVertices ∧
    g.config = ⟨3, .undirected, .adjacencyMatrix⟩ ∧ GraphConfig.ofJson g.config.toJson = .ok g.config ∧
    ∃ fresh : Graph 3, g.config.build.result = .ok fresh ∧ fresh.config = g.config ∧ fresh.edges.toList = [] := by
  intro start os g
  have hstart : start.Constructed .undirected .adjacencyList := .inl rfl
  have hg : g.Reachable := reachable_iff_hasHistory.2 ⟨_, _, start, os, hstart, rfl⟩
  have hmemory : ∀ r, ∃ empty : Graph 3, (create 3 .undirected r).result = .ok empty := by
    intro r
    cases r <;> exact ⟨_, rfl⟩
  obtain ⟨hdocuments, hgraphs⟩ := config_round_trips
  obtain ⟨-, -, -, hhistory, hread, hbuild⟩ := hgraphs hg
  obtain ⟨hconfig, hhad⟩ := hhistory .undirected .adjacencyList start os _ hstart rfl
  rw [hhad hmemory] at hconfig
  have hr : g.representation = .adjacencyMatrix := congrArg GraphConfig.representation hconfig
  rw [hr] at hbuild
  obtain ⟨fresh, hfresh, hshape, -, hempty⟩ := hbuild _ rfl
  exact ⟨hdocuments _ (by decide), hdocuments _ (by decide), hconfig, hread, fresh, hfresh, hshape, hempty⟩

end Graph

end WeightedGraph
