import WeightedGraph.Proofs.Graph.Recast

/-!
# Replaying events

The events of a graph are enough to rebuild its edges.  A successful change reports one event and a failed one none.
Someone who reads them in order and writes them into a map (`replay`) ends with the map that the graph represents, and
finds on the way that every flag is right; the flags since the edges were last cleared tell how many edges there are
(`Tells`).  That holds for whole runs (`tells_performAll`).  A copy is a run that adds the edges of its original
(`addEdges_eq_performAll`): it reports them one by one, and as many of them are new as there are edges.  A conversion
reports the copy that it makes, if it makes one (`events_replay`).
-/

namespace WeightedGraph

namespace Event

/-- The event says that a new edge has been written. -/
def adds : Event → Bool
  | .upsertedEdge _ _ _ created => created
  | _ => false

/-- The event says that an edge has been taken out. -/
def takes : Event → Bool
  | .removedEdge _ _ removed => removed
  | _ => false

/-- The event says that all edges have been taken out. -/
def clears : Event → Bool
  | .clearedGraph _ => true
  | _ => false

/-- The event says that the edge has been written. -/
def Writes (e : Edge) (event : Event) : Prop := ∃ created, event = .upsertedEdge e.source e.target e.weight created

theorem Writes.clears_eq {e : Edge} {event : Event} (h : event.Writes e) : event.clears = false := by
  obtain ⟨created, rfl⟩ := h
  rfl

theorem Writes.takes_eq {e : Edge} {event : Event} (h : event.Writes e) : event.takes = false := by
  obtain ⟨created, rfl⟩ := h
  rfl

end Event

/-- The end of a list of events after the last one that says that the edges have been cleared. -/
def sinceCleared (events : List Event) : List Event := events.rtakeWhile fun e => !e.clears

/-- What a reader of events knows of a graph: its shape, and the weights of its edges under their keys. -/
structure Replica where
  config : GraphConfig
  edges : EdgeMap

namespace Replica

/-- What is known after an event of the graph. -/
def apply (r : Replica) : Event → Replica
  | .upsertedEdge u v w _ => { r with edges := (r.edges.write w (r.config.kind.key u v)).2 }
  | .removedEdge u v true => { r with edges := (r.edges.remove (r.config.kind.key u v)).2 }
  | .clearedGraph _ => { r with edges := ∅ }
  | _ => r

/-- The event can come from the graph as it is known: it is there already, and the flags of the event are right. -/
def Agrees (r : Replica) : Event → Prop
  | .createdGraph .. => False
  | .upsertedEdge u v _ created => created = (r.edges.lookup (r.config.kind.key u v)).isNone
  | .removedEdge u v removed => removed = (r.edges.lookup (r.config.kind.key u v)).isSome
  | _ => True

end Replica

/-- What is known after an event; nothing is known of a graph before it has been created. -/
def Event.replay (r : Option Replica) : Event → Option Replica
  | .createdGraph n kind representation => some ⟨⟨n, kind, representation⟩, ∅⟩
  | e => r.map (·.apply e)

/-- What a reader of the events knows at the end. -/
def replay (events : List Event) : Option Replica := events.foldl Event.replay none

/-- Each event agrees with the events before it. -/
def Consistent (events : List Event) : Prop :=
  ∀ before e after, events = before ++ e :: after → ∀ r, replay before = some r → r.Agrees e

/-- The events tell of a graph and end with what is known of it, their flags are right, and the flags since the edges
were last cleared count the edges. -/
structure Tells (events : List Event) (r : Replica) : Prop where
  replay_eq : replay events = some r
  consistent : Consistent events
  count : r.edges.keys.card + (sinceCleared events).countP Event.takes = (sinceCleared events).countP Event.adds

variable {events : List Event} {r : Replica} {e : Event}

theorem replay_concat_of_agrees (h : replay events = some r) (he : r.Agrees e) :
    replay (events ++ [e]) = some (r.apply e) := by
  rw [replay, List.foldl_append, ← replay, h]
  cases e with
  | createdGraph => exact he.elim
  | _ => rfl

theorem Consistent.concat (h : Consistent events) (he : ∀ r, replay events = some r → r.Agrees e) :
    Consistent (events ++ [e]) := by
  intro before d after hsplit
  rcases List.eq_nil_or_concat' after with rfl | ⟨after, c, rfl⟩
  · obtain ⟨rfl, hd⟩ := List.append_inj' hsplit rfl
    obtain rfl : e = d := by simpa using hd
    exact he
  · rw [← List.cons_append, ← List.append_assoc] at hsplit
    exact h before d after (List.append_inj' hsplit rfl).1

/-- It makes no difference whether a key is taken out that is not there. -/
theorem Replica.apply_removedEdge {u v : Nat} {removed : Bool} (he : r.Agrees (.removedEdge u v removed)) :
    r.apply (.removedEdge u v removed) = { r with edges := (r.edges.remove (r.config.kind.key u v)).2 } := by
  cases removed with
  | true => rfl
  | false =>
    have hnone : (r.edges.lookup (r.config.kind.key u v)).isSome = false := he.symm
    rw [Option.isSome_eq_false_iff, Option.isNone_iff_eq_none] at hnone
    have hsame : (r.edges.remove (r.config.kind.key u v)).2 = r.edges := by
      refine Finmap.ext_lookup fun k => ?_
      rw [EdgeMap.lookup_remove]
      split
      · rename_i hk
        rw [← hk, hnone]
      · rfl
    rw [hsame]
    rfl

/-- A flag that is right tells how the number of edges changes. -/
theorem card_keys_apply (he : r.Agrees e) (hclears : e.clears = false) :
    (r.apply e).edges.keys.card + [e].countP Event.takes = r.edges.keys.card + [e].countP Event.adds := by
  cases e with
  | createdGraph => exact he.elim
  | clearedGraph => contradiction
  | upsertedEdge u v w created =>
    have hcard := r.edges.card_keys_write w (r.config.kind.key u v)
    subst he
    simp only [Replica.apply, hcard]
    cases r.edges.lookup (r.config.kind.key u v) <;> simp [Event.takes, Event.adds]
  | removedEdge u v removed =>
    cases removed with
    | false => simp [Replica.apply, Event.takes, Event.adds]
    | true =>
      have hcard := r.edges.card_keys_remove (r.config.kind.key u v)
      have hsome : (r.edges.lookup (r.config.kind.key u v)).isSome := he.symm
      have hpos : 0 < r.edges.keys.card :=
        Finset.card_pos.2 ⟨_, Finmap.mem_keys.2 (Finmap.lookup_isSome.1 hsome)⟩
      rw [if_pos hsome] at hcard
      simp only [Replica.apply, hcard]
      simp [Event.takes, Event.adds]
      omega
  | _ => simp [Replica.apply, Event.takes, Event.adds]

theorem edges_apply_of_clears (h : e.clears = true) : (r.apply e).edges = ∅ := by
  cases e with
  | clearedGraph => rfl
  | _ => contradiction

theorem Tells.concat (h : Tells events r) (he : r.Agrees e) : Tells (events ++ [e]) (r.apply e) where
  replay_eq := replay_concat_of_agrees h.replay_eq he
  consistent := h.consistent.concat fun r' hr' => by
    rw [h.replay_eq, Option.some.injEq] at hr'
    exact hr' ▸ he
  count := by
    unfold sinceCleared
    cases hclears : e.clears with
    | true =>
      rw [List.rtakeWhile_concat_neg _ _ _ (by simp [hclears]), edges_apply_of_clears hclears]
      rfl
    | false =>
      rw [List.rtakeWhile_concat_pos _ _ _ (by simp [hclears]), List.countP_append, List.countP_append]
      have hcard := card_keys_apply he hclears
      have hcount := h.count
      unfold sinceCleared at hcount
      omega

/-! ### The events of a run -/

/-- What is reported when a change has succeeded. -/
def Change.event (n : Nat) : Change → Bool → Event
  | .addEdge u v w, flag => .upsertedEdge u v w flag
  | .setEdgeWeight u v w, flag => .upsertedEdge u v w flag
  | .addEdgeUnweighted u v, flag => .upsertedEdge u v 1.0 flag
  | .removeEdge u v, flag => .removedEdge u v flag
  | .clear, _ => .clearedGraph n

/-- The single event of a change that has succeeded, with its answer as the flag. -/
def Change.report (n : Nat) (c : Change) : Except GraphError (Option Bool) → List Event
  | .ok answer => [c.event n (answer.getD false)]
  | .error _ => []

namespace EdgeMap

/-- All keys are keys of vertices. -/
def Within (kind : GraphKind) (n : Nat) (m : EdgeMap) : Prop := ∀ k ∈ m, ∃ u v : Fin n, kind.key u v = k

theorem change_cases (kind : GraphKind) (n u v : Nat) (f : Nat × Nat → Bool × EdgeMap) (m : EdgeMap) :
    (∃ problem, change kind n u v f m = (.error problem, m)) ∨
      u < n ∧ v < n ∧ change kind n u v f m = (.ok (some (f (kind.key u v)).1), (f (kind.key u v)).2) := by
  unfold change
  by_cases hu : n ≤ u
  · exact .inl ⟨_, if_pos hu⟩
  · by_cases hv : n ≤ v
    · exact .inl ⟨_, by rw [if_neg hu, if_pos hv]⟩
    · exact .inr ⟨Nat.not_le.1 hu, Nat.not_le.1 hv, by rw [if_neg hu, if_neg hv]⟩

theorem Within.perform {kind : GraphKind} {n : Nat} {m : EdgeMap} (h : m.Within kind n) (c : Change) :
    (m.perform kind n c).2.Within kind n := by
  have hwrite (u v : Nat) (w : Weight) : (change kind n u v (m.write w) m).2.Within kind n := by
    rcases change_cases kind n u v (m.write w) m with ⟨problem, hchange⟩ | ⟨hu, hv, hchange⟩
    · rwa [hchange]
    · rw [hchange]
      intro k hk
      rcases Finmap.mem_insert.1 hk with rfl | hk
      · exact ⟨⟨u, hu⟩, ⟨v, hv⟩, rfl⟩
      · exact h k hk
  cases c with
  | addEdge u v w => exact hwrite u v w
  | setEdgeWeight u v w => exact hwrite u v w
  | addEdgeUnweighted u v => exact hwrite u v 1.0
  | removeEdge u v =>
    show (change kind n u v m.remove m).2.Within kind n
    rcases change_cases kind n u v m.remove m with ⟨problem, hchange⟩ | ⟨-, -, hchange⟩
    · rwa [hchange]
    · rw [hchange]
      exact fun k hk => h k (Finmap.mem_erase.1 hk).2
  | clear => exact fun k hk => absurd hk Finmap.notMem_empty

theorem Within.performAll {kind : GraphKind} {n : Nat} {m : EdgeMap} (h : m.Within kind n) (cs : List Change) :
    (m.performAll kind n cs).2.Within kind n := by
  induction cs generalizing m with
  | nil => exact h
  | cons c cs ih => exact ih (h.perform c)

end EdgeMap

/-- A change of a map of edges reports what has been done to it. -/
theorem Tells.perform {n : Nat} {kind : GraphKind} {representation : Representation} {m : EdgeMap}
    (h : Tells events ⟨⟨n, kind, representation⟩, m⟩) (c : Change) :
    Tells (events ++ c.report n (m.perform kind n c).1) ⟨⟨n, kind, representation⟩, (m.perform kind n c).2⟩ := by
  have hwrite (u v : Nat) (w : Weight) :
      Tells (events ++ (Change.addEdge u v w).report n (EdgeMap.change kind n u v (m.write w) m).1)
        ⟨⟨n, kind, representation⟩, (EdgeMap.change kind n u v (m.write w) m).2⟩ := by
    rcases EdgeMap.change_cases kind n u v (m.write w) m with ⟨problem, hchange⟩ | ⟨-, -, hchange⟩
    · rw [hchange]
      exact (List.append_nil events).symm ▸ h
    · rw [hchange]
      exact h.concat (e := .upsertedEdge u v w (m.write w (kind.key u v)).1) rfl
  cases c with
  | addEdge u v w => exact hwrite u v w
  | setEdgeWeight u v w => exact hwrite u v w
  | addEdgeUnweighted u v => exact hwrite u v 1.0
  | removeEdge u v =>
    show Tells (events ++ (Change.removeEdge u v).report n (EdgeMap.change kind n u v m.remove m).1)
      ⟨⟨n, kind, representation⟩, (EdgeMap.change kind n u v m.remove m).2⟩
    rcases EdgeMap.change_cases kind n u v m.remove m with ⟨problem, hchange⟩ | ⟨-, -, hchange⟩
    · rw [hchange]
      exact (List.append_nil events).symm ▸ h
    · rw [hchange]
      have hagrees : Replica.Agrees ⟨⟨n, kind, representation⟩, m⟩
          (.removedEdge u v (m.remove (kind.key u v)).1) := rfl
      have hnext := h.concat hagrees
      rwa [Replica.apply_removedEdge hagrees] at hnext
  | clear => exact h.concat (e := .clearedGraph n) trivial

namespace Graph

variable {n : Nat} {g h : Graph n} {m : EdgeMap}

/-- The events of a change. -/
def eventsOf (g : Graph n) : Change → List Event
  | .addEdge u v w => (g.addEdge u v w).1.events
  | .setEdgeWeight u v w => (g.setEdgeWeight u v w).1.events
  | .addEdgeUnweighted u v => (g.addEdgeUnweighted u v).1.events
  | .removeEdge u v => (g.removeEdge u v).1.events
  | .clear => g.clear.1.events

/-- The events of each of the changes that are made one after the other. -/
def reports (g : Graph n) : List Change → List (List Event)
  | [] => []
  | c :: cs => g.eventsOf c :: (g.perform c).2.reports cs

theorem eventsOf_eq (g : Graph n) (c : Change) : g.eventsOf c = c.report n (g.perform c).1 := by
  have hadd (u v : Nat) (w : Weight) :
      (g.addEdge u v w).1.events = (Change.addEdge u v w).report n ((g.addEdge u v w).1.result.map some) := by
    unfold addEdge
    split <;> rfl
  cases c with
  | addEdge u v w => exact hadd u v w
  | setEdgeWeight u v w => exact hadd u v w
  | addEdgeUnweighted u v => exact hadd u v unitWeight
  | removeEdge u v =>
    show (g.removeEdge u v).1.events = (Change.removeEdge u v).report n ((g.removeEdge u v).1.result.map some)
    unfold removeEdge
    split <;> rfl
  | clear => rfl

/-- A successful change reports one event, and a failed one reports none. -/
def Announces (answer : Except GraphError (Option Bool)) (report : List Event) : Prop :=
  match answer with
  | .ok _ => report.length = 1
  | .error _ => report = []

theorem announces_eventsOf (g : Graph n) (c : Change) : Announces (g.perform c).1 (g.eventsOf c) := by
  rw [eventsOf_eq]
  generalize (g.perform c).1 = answer
  cases answer <;> rfl

theorem forall₂_announces (g : Graph n) (changes : List Change) :
    List.Forall₂ Announces (g.performAll changes).1 (g.reports changes) := by
  induction changes generalizing g with
  | nil => exact .nil
  | cons c changes ih => exact .cons (g.announces_eventsOf c) (ih (g.perform c).2)

/-- The events of a run tell of the map that the graph represents. -/
theorem tells_performAll {events : List Event} (hm : Represents g m) (h : Tells events ⟨g.config, m⟩)
    (changes : List Change) :
    Tells (events ++ (g.reports changes).flatten) ⟨g.config, (m.performAll g.kind n changes).2⟩ := by
  induction changes generalizing g m events with
  | nil => exact (List.append_nil events).symm ▸ h
  | cons c changes ih =>
    obtain ⟨hanswer, hnext, hkind⟩ := hm.perform c
    have hconfig : (g.perform c).2.config = g.config := by simp [config, hkind]
    have hstep := h.perform c
    rw [← hanswer, ← eventsOf_eq] at hstep
    have hrun := ih hnext (by rw [hconfig]; exact hstep)
    rw [hconfig, hkind, List.append_assoc] at hrun
    exact hrun

theorem events_of_create {kind : GraphKind} {r : Representation} (hg : (create n kind r).result = .ok g) :
    (create n kind r).events = [.createdGraph n kind r] := by
  rw [create_eq] at hg ⊢
  by_cases hn : n = 0
  · rw [if_pos hn] at hg
    contradiction
  · rw [if_neg hn] at hg ⊢
    cases hallocate : Adjacency.allocate n r with
    | error e =>
      rw [hallocate] at hg
      contradiction
    | ok adjacency => rfl

theorem tells_create (n : Nat) (kind : GraphKind) (r : Representation) :
    Tells [.createdGraph n kind r] ⟨⟨n, kind, r⟩, ∅⟩ where
  replay_eq := rfl
  consistent := by
    intro before e after hsplit replica hreplica
    cases before with
    | nil => contradiction
    | cons d before => simp at hsplit
  count := rfl

/-- The events of a new graph and of its changes tell of the map that the graph represents after them. -/
theorem exists_tells_of_create {kind : GraphKind} {r : Representation} (hg : (create n kind r).result = .ok g)
    (changes : List Change) :
    ∃ m, Tells (.createdGraph n kind r :: (g.reports changes).flatten) ⟨⟨n, kind, r⟩, m⟩ ∧
      Represents (g.performAll changes).2 m ∧ m.Within kind n ∧ (g.performAll changes).2.kind = kind := by
  obtain ⟨rfl, rfl⟩ := shape_of_create hg
  have htells := tells_performAll (represents_empty hg) (tells_create n g.kind g.representation) changes
  obtain ⟨-, hfinal, hkind⟩ := (represents_empty hg).performAll changes
  have hempty : EdgeMap.Within g.kind n ∅ := fun k hk => absurd hk Finmap.notMem_empty
  exact ⟨_, htells, hfinal, hempty.performAll changes, hkind⟩

/-! ### Copies -/

/-- Adding edges is a run of changes. -/
theorem addEdges_eq_performAll {edges : List Edge} (hedges : ∀ e ∈ edges, e.InRange n) (g : Graph n) :
    (g.addEdges edges).1.events =
        (g.reports (edges.map fun e => .addEdge e.source e.target e.weight)).flatten ∧
      (g.addEdges edges).2 = (g.performAll (edges.map fun e => .addEdge e.source e.target e.weight)).2 := by
  induction edges generalizing g with
  | nil => exact ⟨rfl, rfl⟩
  | cons e edges ih =>
    have he := hedges e List.mem_cons_self
    obtain ⟨hevents, hgraph⟩ := ih (fun e he => hedges e (List.mem_cons_of_mem _ he))
      (g.insert ⟨e.source, he.1⟩ ⟨e.target, he.2⟩ e.weight).2
    have hstep : g.perform (.addEdge e.source e.target e.weight) =
        (.ok (some (g.insert ⟨e.source, he.1⟩ ⟨e.target, he.2⟩ e.weight).1),
          (g.insert ⟨e.source, he.1⟩ ⟨e.target, he.2⟩ e.weight).2) := by
      rw [perform, addEdge_of_lt g he.1 he.2]
      rfl
    rw [addEdges, addEdge_of_lt g he.1 he.2, List.map_cons, reports, performAll, eventsOf_eq, hstep, List.flatten_cons]
    exact ⟨congrArg _ hevents, hgraph⟩

/-- Each edge that is added is reported, in the order of the edges. -/
theorem forall₂_writes_addEdges {edges : List Edge} (hedges : ∀ e ∈ edges, e.InRange n) (g : Graph n) :
    List.Forall₂ (fun e event => Event.Writes e event) edges (g.addEdges edges).1.events := by
  induction edges generalizing g with
  | nil => exact .nil
  | cons e edges ih =>
    have he := hedges e List.mem_cons_self
    rw [addEdges, addEdge_of_lt g he.1 he.2]
    exact .cons ⟨_, rfl⟩ (ih (fun e he => hedges e (List.mem_cons_of_mem _ he)) _)

theorem exists_of_forall₂_writes {edges : List Edge} {events : List Event}
    (h : List.Forall₂ (fun e event => Event.Writes e event) edges events) :
    ∀ event ∈ events, ∃ e, Event.Writes e event := by
  induction h with
  | nil => simp
  | cons hwrites _ ih => exact List.forall_mem_cons.2 ⟨⟨_, hwrites⟩, ih⟩

/-- If edges are only written, as many events say that an edge is new as there are edges in the end. -/
private theorem card_keys_of_upserts {kind : GraphKind} {r r' : Representation} {k : Nat} {upserts : List Event}
    {replica : Replica} (hupserts : ∀ event ∈ upserts, ∃ e, Event.Writes e event)
    (h : Tells (.createdGraph n kind r :: upserts ++ [.copiedGraph r' r k]) replica) :
    upserts.countP Event.adds = replica.edges.keys.card := by
  have hall : sinceCleared (.createdGraph n kind r :: upserts ++ [.copiedGraph r' r k]) =
      .createdGraph n kind r :: upserts ++ [.copiedGraph r' r k] := by
    refine List.rtakeWhile_eq_self_iff.2 fun event hevent => ?_
    rw [List.cons_append, List.mem_cons, List.mem_append, List.mem_singleton] at hevent
    rcases hevent with rfl | hevent | rfl
    · rfl
    · obtain ⟨e, he⟩ := hupserts event hevent
      simp [he.clears_eq]
    · rfl
  have htakes : upserts.countP Event.takes = 0 := by
    refine List.countP_eq_zero.2 fun event hevent => ?_
    obtain ⟨e, he⟩ := hupserts event hevent
    simp [he.takes_eq]
  have hcount := h.count
  rw [hall] at hcount
  simpa [List.countP_append, htakes, Event.takes, Event.adds] using hcount.symm

theorem events_copy {r : Representation} {empty : Graph n} (hempty : (create n g.kind r).result = .ok empty) :
    (g.copy r).events = .createdGraph n g.kind r :: (empty.addEdges g.edges.toList).1.events ++
      [.copiedGraph g.representation r (empty.addEdges g.edges.toList).2.edgeCount] := by
  have hadded := addEdges_of_inRange (g := empty) g.inRange_of_mem_edges
  have hevents := events_of_create hempty
  simp only [copy, fromEdges, Outcome.bind_def, Outcome.pure_def, Outcome.bind, hempty, hadded, hevents]
  simp [Outcome.ok, Outcome.report]

/-- A copy reports that a graph has been created, then each edge of its original, and at last the number of edges; all
of that tells of the map that the copy represents. -/
theorem tells_copy {r : Representation} (hcopy : (g.copy r).result = .ok h) :
    ∃ upserts m, (g.copy r).events = .createdGraph n g.kind r :: upserts ++
        [.copiedGraph g.representation r h.edgeCount] ∧
      List.Forall₂ (fun e event => Event.Writes e event) g.edges.toList upserts ∧
      Tells (g.copy r).events ⟨⟨n, g.kind, r⟩, m⟩ ∧ Represents h m ∧ m.Within g.kind n := by
  obtain ⟨empty, hempty, rfl⟩ := exists_create_of_copy hcopy
  obtain ⟨hevents, hgraph⟩ := addEdges_eq_performAll g.inRange_of_mem_edges empty
  obtain ⟨m, htells, hrep, hwithin, -⟩ := exists_tells_of_create hempty
    (g.edges.toList.map fun e => .addEdge e.source e.target e.weight)
  rw [← hevents] at htells
  refine ⟨_, m, events_copy hempty, forall₂_writes_addEdges g.inRange_of_mem_edges empty, ?_, hgraph ▸ hrep, hwithin⟩
  rw [events_copy hempty]
  exact htells.concat trivial

/-- The map holds the edges that are found in the graph under their keys, and nothing else. -/
def HasEdges (g : Graph n) (m : EdgeMap) : Prop :=
  (∀ u v : Nat, g.findEdgeWeight u v = if u < n ∧ v < n then m.lookup (g.kind.key u v) else none) ∧
    m.Within g.kind n

/-- The events of a copy rebuild it, and as many of its edges are new as its original has edges. -/
theorem copy_replays (hg : g.Reachable) {r : Representation} (hcopy : (g.copy r).result = .ok h) :
    ∃ upserts m, (g.copy r).events = .createdGraph n g.kind r :: upserts ++
        [.copiedGraph g.representation r g.edgeCount] ∧
      List.Forall₂ (fun e event => Event.Writes e event) g.edges.toList upserts ∧
      upserts.countP Event.adds = g.edgeCount ∧
      Consistent (g.copy r).events ∧
      replay (g.copy r).events = some ⟨⟨n, g.kind, r⟩, m⟩ ∧ h.HasEdges m := by
  obtain ⟨upserts, m, hevents, hupserts, htells, hrep, hwithin⟩ := tells_copy hcopy
  obtain ⟨m', hg', hh', hkind⟩ := exists_represents_copy hg hcopy
  have hcount : h.edgeCount = g.edgeCount := by rw [hg'.edgeCount, hh'.edgeCount]
  have hadds : upserts.countP Event.adds = h.edgeCount := by
    rw [hevents] at htells
    rw [hrep.edgeCount]
    exact card_keys_of_upserts (exists_of_forall₂_writes hupserts) htells
  rw [hcount] at hevents hadds
  exact ⟨upserts, m, hevents, hupserts, hadds, htells.consistent, htells.replay_eq, hrep.findEdgeWeight,
    hkind.symm ▸ hwithin⟩

/-- The events of a run rebuild the edges of the graph, with every flag right on the way, and a copy or a conversion
reports the edges that it copies. -/
theorem events_replay {kind : GraphKind} {r : Representation} (hg : (create n kind r).result = .ok g)
    (changes : List Change) :
    let final := (g.performAll changes).2
    let events := (create n kind r).events ++ (g.reports changes).flatten
    List.Forall₂ Announces (g.performAll changes).1 (g.reports changes) ∧
    (∃ m, replay events = some ⟨⟨n, kind, r⟩, m⟩ ∧ final.HasEdges m) ∧
    Consistent events ∧
    final.edgeCount + (sinceCleared events).countP Event.takes = (sinceCleared events).countP Event.adds ∧
    (∀ (source : Graph n) (r' : Representation), source.Reachable →
      (∀ copied : Graph n, (source.copy r').result = .ok copied →
        ∃ upserts m, (source.copy r').events = .createdGraph n source.kind r' :: upserts ++
            [.copiedGraph source.representation r' source.edgeCount] ∧
          List.Forall₂ (fun e event => Event.Writes e event) source.edges.toList upserts ∧
          upserts.countP Event.adds = source.edgeCount ∧
          Consistent (source.copy r').events ∧
          replay (source.copy r').events = some ⟨⟨n, source.kind, r'⟩, m⟩ ∧ copied.HasEdges m) ∧
      (source.representation = r' → source.convert r' = (⟨.ok (), []⟩, source)) ∧
      (source.representation ≠ r' → (source.convert r').1.events = (source.copy r').events)) := by
  intro final events
  have hevents : events = .createdGraph n kind r :: (g.reports changes).flatten := by
    rw [show events = (create n kind r).events ++ (g.reports changes).flatten from rfl, events_of_create hg]
    rfl
  obtain ⟨m, htells, hfinal, hwithin, hkind⟩ := exists_tells_of_create hg changes
  rw [hevents]
  exact ⟨g.forall₂_announces changes, ⟨m, htells.replay_eq, hfinal.findEdgeWeight, hkind.symm ▸ hwithin⟩,
    htells.consistent, hfinal.edgeCount ▸ htells.count,
    fun source r' hsource => ⟨fun copied hcopied => copy_replays hsource hcopied,
      fun hr => hr ▸ source.convert_of_eq, events_convert_of_ne⟩⟩

/-- A run in which an edge is written and removed from either end and a change fails; the copy writes its one edge from
both ends, and only the first time it is new. -/
theorem events_replay_both_ends :
    let g : Graph 3 := ⟨.undirected, .rows (.empty 3), 0⟩
    let changes := [.addEdge 0 1 1.5, .addEdge 1 0 2.5, .addEdge 0 3 0.5, .addEdge 2 1 4.5, .removeEdge 1 0]
    let final := (g.performAll changes).2
    let events := (create 3 .undirected .adjacencyList).events ++ (g.reports changes).flatten
    (create 3 .undirected .adjacencyList).result = .ok g ∧ events.length = 5 ∧
      (∃ m, replay events = some ⟨⟨3, .undirected, .adjacencyList⟩, m⟩ ∧ m.lookup (1, 2) = some 4.5 ∧
        m.lookup (0, 1) = none) ∧
      (sinceCleared events).countP Event.adds = 2 ∧
      ∃ upserts, (final.copy .adjacencyMatrix).events = .createdGraph 3 .undirected .adjacencyMatrix :: upserts ++
          [.copiedGraph .adjacencyList .adjacencyMatrix 1] ∧
        upserts.length = 2 ∧ upserts.countP Event.adds = 1 := by
  intro g changes final events
  have hg : (create 3 .undirected .adjacencyList).result = .ok g := rfl
  obtain ⟨-, ⟨m, hreplay, hfind, -⟩, -, hcount, hcopy⟩ := events_replay hg changes
  have hfinal : final.Reachable :=
    ((((Reachable.create hg).addEdge 0 1 1.5).addEdge 1 0 2.5).addEdge 0 3 0.5).addEdge 2 1 4.5 |>.removeEdge 1 0
  obtain ⟨copied, hcopied⟩ : ∃ copied, (final.copy .adjacencyMatrix).result = .ok copied :=
    ⟨_, by rw [result_copy]; rfl⟩
  obtain ⟨upserts, -, hevents, hupserts, hadds, -⟩ := (hcopy final .adjacencyMatrix hfinal).1 copied hcopied
  refine ⟨hg, by decide, ⟨m, hreplay, ?_, ?_⟩, ?_, upserts, hevents, ?_, hadds⟩
  · exact (hfind 1 2).symm.trans (by decide)
  · exact (hfind 0 1).symm.trans (by decide)
  · exact hcount.symm.trans (by decide)
  · rw [← hupserts.length_eq, toList_edges]
    decide

end Graph

end WeightedGraph
