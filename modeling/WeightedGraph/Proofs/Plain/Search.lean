import WeightedGraph.Proofs.Plain.Cursor
import WeightedGraph.Proofs.Plain.Heap
import WeightedGraph.Search.BreadthFirst
import WeightedGraph.Search.DepthFirst
import WeightedGraph.Search.ShortestPaths

/-!
# Plain searches

The searches on arrays of flags, distances and predecessors, one place for each vertex.  Started at a vertex they
look for no place that the arrays do not have, and they end (`BreadthFirst.run?_plain`, `DepthFirst.run?_plain`,
`ShortestPaths.run?_plain`).  So does the way back along the predecessors where they do not run in a circle
(`ShortestPaths.pathTo?_plain`).
-/

namespace WeightedGraph

def Queue.map {α δ : Type} (f : α → δ) (q : Queue α) : Queue δ := ⟨q.front.map f, q.back.map f⟩

def Stack.map {α δ : Type} (f : α → δ) (s : Stack α) : Stack δ := ⟨s.toList.map f⟩

theorem Queue.dequeue_map {α δ : Type} (f : α → δ) (q : Queue α) :
    (q.map f).dequeue = q.dequeue.map (Option.map f) (Queue.map f) := by
  obtain ⟨front, back⟩ := q
  cases front with
  | cons a front => rfl
  | nil =>
    simp only [Queue.map, Queue.dequeue, List.map_nil, ← List.map_reverse]
    cases back.reverse <;> rfl

theorem Queue.isEmpty_map {α δ : Type} (f : α → δ) (q : Queue α) : (q.map f).isEmpty = q.isEmpty := by
  simp [Queue.isEmpty, Queue.map]

theorem Stack.pop_map {α δ : Type} (f : α → δ) (s : Stack α) :
    (s.map f).pop = s.pop.map (Option.map f) (Stack.map f) := by
  obtain ⟨items⟩ := s
  cases items <;> rfl

theorem Stack.isEmpty_map {α δ : Type} (f : α → δ) (s : Stack α) : (s.map f).isEmpty = s.isEmpty := by
  simp [Stack.isEmpty, Stack.map]

variable {n : Nat} {β : Type}

namespace Plain

/-- A cursor at the first edge of a vertex. -/
def Storage.neighbors (s : Storage) (u : Nat) : Cursor := ⟨s, u, 0, u + 1⟩

theorem getElem?_toArray {α : Type} (xs : Vector α n) (v : Fin n) : xs.toArray[v.val]? = some (xs.get v) := by
  simp [Vector.get]

theorem write?_toArray {α : Type} (xs : Vector α n) (v : Fin n) (x : α) :
    write? xs.toArray v x = some (xs.set v x v.isLt).toArray := by
  rw [write?_of_lt (by simp)]
  rfl

/-- A loop over the edges of a vertex does what a fold over its records does. -/
theorem forEach?_neighbors {σ τ : Type} (plain : σ → τ) {step : σ → Record (Fin n) → σ}
    {step' : τ → Edge → Option τ} (a : Adjacency n) (u : Fin n)
    (hstep : ∀ s r, step' (plain s) ⟨u, r.target, r.weight⟩ = some (plain (step s r))) (s : σ) :
    (a.plain.neighbors u).forEach? step' (plain s) = some (plain ((a.records u).foldl step s)) :=
  Cursor.forEach?_eq (Cursor.reads_vertex a u) (foldlM_map_eq hstep (a.records u) s)

/-! ### Breadth-first search -/

namespace BreadthFirst

structure State (β : Type) where
  seen : Array Bool
  queue : Queue Nat
  value : β

/-- Puts the target of an edge into the queue unless it has been there. -/
def State.discover? (s : State β) (e : Edge) : Option (State β) := do
  let old ← s.seen[e.target]?
  if old then return s
  else
    let seen ← write? s.seen e.target true
    return { s with seen, queue := s.queue.enqueue e.target }

def State.isDone (s : State β) : Bool := s.queue.isEmpty

noncomputable def State.step? (storage : Storage) (visit : β → Nat → β) (s : State β) : Option (State β) :=
  match s.queue.dequeue with
  | (none, _) => some s
  | (some u, queue) =>
    (storage.neighbors u).forEach? State.discover? { s with queue, value := visit s.value u }

noncomputable def run? (storage : Storage) (n : Nat) (visit : β → Nat → β) (start : Nat) (value : β) :
    Option (State β) := do
  let seen ← write? (.replicate n false) start true
  repeatUntil? State.isDone (State.step? storage visit) ⟨seen, Queue.empty.enqueue start, value⟩

end BreadthFirst

/-! ### Depth-first search -/

namespace DepthFirst

structure State (β : Type) where
  seen : Array Bool
  stack : Stack Nat
  value : β

/-- Puts the target of an edge on the stack unless it has been seen. -/
def push? (seen : Array Bool) (stack : Stack Nat) (e : Edge) : Option (Stack Nat) := do
  let old ← seen[e.target]?
  if old then return stack else return stack.push e.target

def State.isDone (s : State β) : Bool := s.stack.isEmpty

noncomputable def State.step? (storage : Storage) (visit : β → Nat → β) (s : State β) : Option (State β) :=
  match s.stack.pop with
  | (none, _) => some s
  | (some u, stack) => do
    let old ← s.seen[u]?
    if old then return { s with stack }
    else
      let seen ← write? s.seen u true
      let stack ← (storage.neighbors u).forEach? (push? seen) stack
      return ⟨seen, stack, visit s.value u⟩

noncomputable def run? (storage : Storage) (n : Nat) (visit : β → Nat → β) (start : Nat) (value : β) :
    Option (State β) :=
  repeatUntil? State.isDone (State.step? storage visit) ⟨.replicate n false, Stack.empty.push start, value⟩

end DepthFirst

/-! ### Shortest paths -/

namespace ShortestPaths

open WeightedGraph.ShortestPaths (infinity)

/-- The vertex at the end of a way and the length of the way. -/
abbrev Tentative := Nat × Weight

def Tentative.compare (a b : Tentative) : Ordering := Weight.compare a.2 b.2

structure State where
  distances : Array Weight
  predecessors : Array (Option Nat)
  finalized : Array Bool
  frontier : PriorityQueue Tentative Tentative.compare

/-- Tries the way to the target of an edge from `u`, unless that vertex is finalized. -/
def State.relax? (u : Nat) (s : State) (e : Edge) : Option State := do
  let final ← s.finalized[e.target]?
  if final then return s
  else
    let distance ← s.distances[u]?
    let candidate := distance + e.weight
    let best ← s.distances[e.target]?
    if candidate < best then
      let distances ← write? s.distances e.target candidate
      let predecessors ← write? s.predecessors e.target (some u)
      let frontier ← s.frontier.insert? (e.target, candidate)
      return { s with distances, predecessors, frontier }
    else return s

def State.isDone (s : State) : Bool := s.frontier.isEmpty

noncomputable def State.step? (storage : Storage) (s : State) : Option State := do
  let (first, frontier) ← s.frontier.extractMin?
  match first with
  | none => return { s with frontier }
  | some (u, _) =>
    let final ← s.finalized[u]?
    if final then return { s with frontier }
    else
      let finalized ← write? s.finalized u true
      (storage.neighbors u).forEach? (State.relax? u) { s with finalized, frontier }

noncomputable def run? (storage : Storage) (n : Nat) (source : Nat) : Option State := do
  let distances ← write? (.replicate n infinity) source 0.0
  let frontier ← PriorityQueue.empty.insert? (source, 0.0)
  repeatUntil? State.isDone (State.step? storage) ⟨distances, .replicate n none, .replicate n false, frontier⟩

/-- The way back from a vertex, as far as it has been gone, and whether it has ended. -/
structure Trace where
  vertex : Nat
  path : List Nat
  ended : Bool

/-- Goes back to the predecessor, if there is one. -/
def Trace.turn? (predecessors : Array (Option Nat)) (t : Trace) : Option Trace :=
  match predecessors[t.vertex]?.join with
  | none => some { t with ended := true }
  | some u => some ⟨u, u :: t.path, false⟩

noncomputable def traceBack? (predecessors : Array (Option Nat)) (v : Nat) : Option (List Nat) :=
  (repeatUntil? Trace.ended (Trace.turn? predecessors) ⟨v, [v], false⟩).map (·.path)

/-- The vertices on a shortest path to a vertex at a finite distance. -/
noncomputable def pathTo? (distances : Array Weight) (predecessors : Array (Option Nat)) (target : Nat) :
    Option (Option (List Nat)) :=
  if distances[target]?.any Float.isFinite then (traceBack? predecessors target).map some else some none

end ShortestPaths

end Plain

/-! ### The searches do the same -/

open Plain

namespace BreadthFirst

def State.plain (s : State n β) : Plain.BreadthFirst.State β :=
  ⟨s.seen.flags.toArray, s.queue.map Fin.val, s.value⟩

theorem State.discover?_plain (s : State n β) (v : Fin n) (u : Nat) (w : Weight) :
    s.plain.discover? ⟨u, v, w⟩ = some (s.discover v).plain := by
  unfold Plain.BreadthFirst.State.discover? State.discover
  simp only [State.plain, getElem?_toArray, write?_toArray, Option.bind_eq_bind, Option.bind_some]
  show _ = some (State.plain (if s.seen.flags.get v then _ else _))
  split <;> rfl

theorem State.step?_plain (a : Adjacency n) (visit : β → Nat → β) (s : State n β) :
    s.plain.step? a.plain visit = some (s.step a.successors fun b v => visit b v).plain := by
  have hdequeue : s.plain.queue.dequeue = s.queue.dequeue.map (Option.map Fin.val) (Queue.map Fin.val) :=
    s.queue.dequeue_map Fin.val
  unfold Plain.BreadthFirst.State.step? State.step
  rw [hdequeue]
  rcases s.queue.dequeue with ⟨_ | u, queue⟩
  · rfl
  · have hloop := forEach?_neighbors State.plain a u
      (fun s r => State.discover?_plain s r.target u r.weight)
      { s with queue, visited := s.visited + 1, value := visit s.value u }
    simp only [Adjacency.successors, Row.targets, List.foldl_map]
    exact hloop

/-- A plain breadth-first search from a vertex visits what the search visits. -/
theorem run?_plain (a : Adjacency n) (visit : β → Nat → β) (start : Fin n) (value : β) :
    Plain.BreadthFirst.run? a.plain n visit start value =
      some (run a.successors (fun b v => visit b v) start value).plain := by
  have hseen : write? (.replicate n false) start true = some ((VertexSet.empty n).insert start).flags.toArray :=
    write?_toArray (.replicate n false) start true
  have hdone (s : State n β) : s.plain.isDone = s.isDone := s.queue.isEmpty_map Fin.val
  simp only [Plain.BreadthFirst.run?, hseen, Option.bind_eq_bind, Option.bind_some]
  exact repeatUntil?_eq hdone (fun s _ => State.step?_plain a visit s) (State.initial start value)

end BreadthFirst

namespace DepthFirst

def State.plain (s : State n β) : Plain.DepthFirst.State β :=
  ⟨s.seen.flags.toArray, s.stack.map Fin.val, s.value⟩

theorem push?_plain (seen : VertexSet n) (stack : Stack (Fin n)) (v : Fin n) (u : Nat) (w : Weight) :
    Plain.DepthFirst.push? seen.flags.toArray (stack.map Fin.val) ⟨u, v, w⟩ =
      some ((if seen.contains v then stack else stack.push v).map Fin.val) := by
  unfold Plain.DepthFirst.push?
  simp only [getElem?_toArray, Option.bind_eq_bind, Option.bind_some]
  show _ = some (Stack.map Fin.val (if seen.flags.get v then _ else _))
  split <;> rfl

theorem State.step?_plain (a : Adjacency n) (visit : β → Nat → β) (s : State n β) :
    s.plain.step? a.plain visit = some (s.step a.successors fun b v => visit b v).plain := by
  have hpop : s.plain.stack.pop = s.stack.pop.map (Option.map Fin.val) (Stack.map Fin.val) := s.stack.pop_map Fin.val
  unfold Plain.DepthFirst.State.step? State.step
  rw [hpop]
  rcases s.stack.pop with ⟨_ | u, stack⟩
  · rfl
  · have hread : s.plain.seen[u.val]? = some (s.seen.contains u) := getElem?_toArray ..
    have hwrite : write? s.plain.seen u true = some (s.seen.insert u).flags.toArray := write?_toArray ..
    have hloop := forEach?_neighbors (Stack.map Fin.val) a u
      (fun stack r => push?_plain (s.seen.insert u) stack r.target u r.weight) stack
    simp only [Prod.map, Option.map_some, hread, hwrite, Option.bind_eq_bind, Option.bind_some]
    split
    · rfl
    · rw [hloop]
      simp only [Adjacency.successors, Row.targets, pushUnseen, List.foldl_map]
      rfl

/-- A plain depth-first search from a vertex visits what the search visits. -/
theorem run?_plain (a : Adjacency n) (visit : β → Nat → β) (start : Fin n) (value : β) :
    Plain.DepthFirst.run? a.plain n visit start value =
      some (run a.successors (fun b v => visit b v) start value).plain := by
  have hdone (s : State n β) : s.plain.isDone = s.isDone := s.stack.isEmpty_map Fin.val
  have hseen : (VertexSet.empty n).flags.toArray = .replicate n false := by simp [VertexSet.empty]
  rw [Plain.DepthFirst.run?, ← hseen]
  exact repeatUntil?_eq hdone (fun s _ => State.step?_plain a visit s) (State.initial start value)

end DepthFirst

namespace ShortestPaths

def Tentative.plain (t : Tentative n) : Plain.ShortestPaths.Tentative := (t.vertex, t.distance)

def State.plain (s : State n) : Plain.ShortestPaths.State where
  distances := s.distances.toArray
  predecessors := (s.predecessors.map (Option.map Fin.val)).toArray
  finalized := s.finalized.flags.toArray
  frontier := s.frontier.map Tentative.plain

theorem compare_plain (s t : Tentative n) : s.plain.compare t.plain = s.compare t := rfl

theorem insert?_plain (q : PriorityQueue (Tentative n) Tentative.compare) (t : Tentative n) :
    (q.map Tentative.plain : PriorityQueue _ Plain.ShortestPaths.Tentative.compare).insert? t.plain =
      some ((q.insert t).map Tentative.plain) := PriorityQueue.insert?_map compare_plain q t

theorem State.relax?_plain (s : State n) (u : Fin n) (r : Record (Fin n)) :
    s.plain.relax? u ⟨u, r.target, r.weight⟩ = some (s.relax u r).plain := by
  have hfinal : s.plain.finalized[r.target.val]? = some (s.finalized.contains r.target) := getElem?_toArray ..
  have hdistance (v : Fin n) : s.plain.distances[v.val]? = some (s.distances.get v) := getElem?_toArray ..
  have hwrite (d : Weight) : write? s.plain.distances r.target d =
      some (s.distances.set r.target d r.target.isLt).toArray := write?_toArray ..
  have hpredecessor : write? s.plain.predecessors r.target (some u.val) =
      some ((s.predecessors.set r.target (some u) r.target.isLt).map (Option.map Fin.val)).toArray := by
    rw [Vector.map_set]
    exact write?_toArray ..
  have hinsert (d : Weight) : s.plain.frontier.insert? (r.target.val, d) =
      some ((s.frontier.insert ⟨r.target, d⟩).map Tentative.plain) := insert?_plain s.frontier ⟨r.target, d⟩
  unfold Plain.ShortestPaths.State.relax? State.relax
  simp only [hfinal, hdistance, hwrite, hpredecessor, hinsert, Option.bind_eq_bind, Option.bind_some]
  split
  · rfl
  · split <;> rfl

theorem State.step?_plain (a : Adjacency n) (s : State n) :
    s.plain.step? a.plain = some (s.step a.records).plain := by
  obtain ⟨distances, predecessors, finalized, frontier, settled, stale⟩ := s
  have hextract := PriorityQueue.extractMin?_map compare_plain frontier
  unfold Plain.ShortestPaths.State.step? State.step
  simp only [State.plain, hextract, Option.bind_eq_bind, Option.bind_some]
  rcases frontier.extractMin with ⟨_ | t, frontier⟩
  · rfl
  · have hread : finalized.flags.toArray[t.vertex.val]? = some (finalized.contains t.vertex) := getElem?_toArray ..
    have hwrite : write? finalized.flags.toArray t.vertex true = some (finalized.insert t.vertex).flags.toArray :=
      write?_toArray ..
    have hloop := forEach?_neighbors State.plain a t.vertex (fun s r => State.relax?_plain s t.vertex r)
      ⟨distances, predecessors, finalized.insert t.vertex, frontier, settled + 1, stale⟩
    simp only [Prod.map, Option.map_some, Tentative.plain, hread, hwrite, Option.bind_some]
    split
    · rfl
    · exact hloop

/-- A plain search for shortest paths from a vertex finds what the search finds. -/
theorem run?_plain (a : Adjacency n) (source : Fin n) :
    Plain.ShortestPaths.run? a.plain n source = some (run a.records source).plain := by
  have hdistances : write? (.replicate n infinity) source 0.0 =
      some (State.initial source).distances.toArray := write?_toArray (.replicate n infinity) source 0.0
  have hfrontier : (PriorityQueue.empty : PriorityQueue _ Plain.ShortestPaths.Tentative.compare).insert?
      (source.val, 0.0) = some ((State.initial source).frontier.map Tentative.plain) :=
    PriorityQueue.map_empty Tentative.plain ▸ insert?_plain .empty ⟨source, 0.0⟩
  have hdone (s : State n) : s.plain.isDone = s.isDone := PriorityQueue.isEmpty_map Tentative.plain s.frontier
  have hpredecessors :
      ((State.initial source).predecessors.map (Option.map Fin.val)).toArray = .replicate n none := by
    simp [State.initial]
  have hfinalized : (State.initial source).finalized.flags.toArray = .replicate n false := by
    simp [State.initial, VertexSet.empty]
  simp only [Plain.ShortestPaths.run?, hdistances, hfrontier, Option.bind_eq_bind, Option.bind_some]
  rw [← hpredecessors, ← hfinalized]
  exact repeatUntil?_eq hdone (fun s _ => State.step?_plain a s) (State.initial source)

/-- The arrays of a result. -/
def plain (p : ShortestPaths n) : Array Weight × Array (Option Nat) :=
  (p.distances.toArray, (p.predecessors.map (Option.map Fin.val)).toArray)

theorem turn?_plain (p : ShortestPaths n) (v : Fin n) (path : List Nat) :
    Plain.ShortestPaths.Trace.turn? p.plain.2 ⟨v, path, false⟩ =
      match p.predecessors.get v with
      | none => some ⟨v, path, true⟩
      | some u => some ⟨u, u :: path, false⟩ := by
  have hread : p.plain.2[v.val]? = some ((p.predecessors.get v).map Fin.val) := by
    simp [plain, Vector.get]
  unfold Plain.ShortestPaths.Trace.turn?
  rw [hread]
  cases p.predecessors.get v <;> rfl

/-- Going back ends where the search for a path ends. -/
theorem repeatUntil?_turn? {p : ShortestPaths n} {count : Nat} {v : Fin n} {rest path : List Nat}
    (h : p.traceWithin count v rest = some path) :
    (repeatUntil? Plain.ShortestPaths.Trace.ended (Plain.ShortestPaths.Trace.turn? p.plain.2)
      ⟨v, v :: rest, false⟩).map (·.path) = some path := by
  induction count generalizing v rest with
  | zero => contradiction
  | succ count ih =>
    have hturn := turn?_plain p v (v :: rest)
    rw [traceWithin] at h
    cases hv : p.predecessors.get v with
    | none =>
      rw [hv] at hturn h
      rw [repeatUntil?_of_step rfl hturn, repeatUntil?_of_done rfl]
      exact h
    | some u =>
      rw [hv] at hturn h
      rw [repeatUntil?_of_step rfl hturn]
      exact ih h

/-- A plain search for a path ends if there is an end to the way back, and finds the path. -/
theorem pathTo?_plain {p : ShortestPaths n} {t : Nat} (h : p.isReachable t = true → (p.pathTo t).isSome) :
    Plain.ShortestPaths.pathTo? p.plain.1 p.plain.2 t = some (p.pathTo t) := by
  have hreachable : (p.plain.1[t]?.any Float.isFinite) = p.isReachable t := by
    simp [plain, isReachable, distance?]
  unfold Plain.ShortestPaths.pathTo?
  rw [hreachable]
  split
  · rename_i hfinite
    obtain ⟨path, hpath⟩ := Option.isSome_iff_exists.1 (h hfinite)
    have htrace := hpath
    simp only [pathTo, hfinite, if_true] at htrace
    split at htrace
    · rw [hpath]
      exact congrArg (Option.map some) (repeatUntil?_turn? htrace)
    · contradiction
  · rename_i hinfinite
    simp [pathTo, hinfinite]

end ShortestPaths

end WeightedGraph
