import WeightedGraph.Graph.Cursor
import WeightedGraph.Proofs.Plain.Storage

/-!
# Plain cursors

A cursor as two numbers, a vertex and a place among its edges, which walks up to a vertex where it stops.  It finds
the edges that a cursor over the adjacency has left (`Cursor.Reads`), however it is asked for them
(`performAll?_eq`), and so does a loop over them (`forEach?_eq`).
-/

namespace WeightedGraph

namespace Plain

variable {β : Type}

/-- The first place from `i` on at which `u` has an edge. -/
def Storage.occupied? : Storage → Nat → Nat → Option (Option Nat)
  | .lists rows, u, i => do
    let row ← rows[u]?
    return if i < row.size then some i else none
  | .matrix _ present side, u, i => do
    let flags ← flags? present side u
    let rest ← slice? flags i flags.size
    return (rest.findIdx? fun set => set).map (i + ·)

/-- The edge at a place of `u`. -/
def Storage.edgeAt? : Storage → Nat → Nat → Option Edge
  | .lists rows, u, i => do
    let row ← rows[u]?
    let r ← row[i]?
    return ⟨u, r.target, r.weight⟩
  | .matrix weights _ side, u, v => do
    let w ← weights[u * side + v]?
    return ⟨u, v, w⟩

/-- A vertex and a place among its edges; the vertices from `stop` on are not looked at. -/
structure Cursor where
  storage : Storage
  vertex : Nat
  place : Nat
  stop : Nat

namespace Cursor

/-- Moves on to an edge, and says whether there is one. -/
def hasNext? (c : Cursor) : Option (Bool × Cursor) :=
  if c.vertex < c.stop then do
    match ← c.storage.occupied? c.vertex c.place with
    | some place => return (true, { c with place })
    | none => hasNext? { c with vertex := c.vertex + 1, place := 0 }
  else return (false, c)
termination_by c.stop - c.vertex

def next? (c : Cursor) : Option (Option Edge × Cursor) := do
  let (found, c) ← c.hasNext?
  if found then
    let e ← c.storage.edgeAt? c.vertex c.place
    return (some e, { c with place := c.place + 1 })
  else return (none, c)

/-- A loop over the edges of a cursor: where it is, what it has come to, and whether it has ended. -/
structure Loop (β : Type) where
  cursor : Cursor
  value : β
  ended : Bool

/-- Does something with the next edge. -/
def Loop.turn? (body : β → Edge → Option β) (l : Loop β) : Option (Loop β) := do
  let (found, cursor) ← l.cursor.next?
  match found with
  | none => return ⟨cursor, l.value, true⟩
  | some e =>
    let value ← body l.value e
    return ⟨cursor, value, false⟩

/-- Does something with each edge in turn. -/
noncomputable def forEach? (c : Cursor) (body : β → Edge → Option β) (value : β) : Option β := do
  let last ← repeatUntil? Loop.ended (Loop.turn? body) ⟨c, value, false⟩
  return last.value

end Cursor

end Plain

/-- A call of a cursor. -/
inductive CursorCall
  | hasNext
  | next

/-- The answers of a cursor to one call after the other. -/
def EdgeCursor.performAll {n : Nat} (c : EdgeCursor n) : List CursorCall → List (Bool ⊕ Option Edge)
  | [] => []
  | .hasNext :: calls =>
    let (answer, c) := c.hasNext
    .inl answer :: c.performAll calls
  | .next :: calls =>
    let (answer, c) := c.next
    .inr answer :: c.performAll calls

/-- The answers of a plain cursor to one call after the other. -/
def Plain.Cursor.performAll? (c : Cursor) : List CursorCall → Option (List (Bool ⊕ Option Edge))
  | [] => some []
  | .hasNext :: calls => do
    let (answer, c) ← c.hasNext?
    let answers ← c.performAll? calls
    return .inl answer :: answers
  | .next :: calls => do
    let (answer, c) ← c.next?
    let answers ← c.performAll? calls
    return .inr answer :: answers

variable {n : Nat}

/-- The places at which a vertex can have edges. -/
def Adjacency.width : Adjacency n → Fin n → Nat
  | .rows a, u => (a.records u).length
  | .grid _, _ => n

/-- The edge from `u` to `v`, if there is one. -/
def Grid.edge? (a : Grid n) (u v : Fin n) : Option Edge := (a.weight? u v).map fun w => ⟨u, v, w⟩

/-- The edges of a vertex from a place on. -/
def Adjacency.outEdgesFrom : Adjacency n → Fin n → Nat → List Edge
  | .rows a, u, i => ((Adjacency.rows a).outEdges u).drop i
  | .grid a, u, i => ((List.finRange n).drop i).filterMap (a.edge? u)

namespace Plain

variable {a : Adjacency n}

theorem outEdgesFrom_zero (a : Adjacency n) (u : Fin n) : a.outEdgesFrom u 0 = a.outEdges u := by
  cases a with
  | rows a => rfl
  | grid a =>
    show ((List.finRange n).drop 0).filterMap (a.edge? u) = (a.records u).map fun r => ⟨u, r.target, r.weight⟩
    unfold Grid.records
    rw [List.map_filterMap, List.drop_zero]
    congr 1
    funext v
    unfold Grid.edge? Grid.weight?
    split <;> rfl

theorem outEdgesFrom_rows_of_lt {a : Rows n} {u : Fin n} {i : Nat} (hi : i < (a.records u).length) :
    (Adjacency.rows a).outEdgesFrom u i =
      ⟨u, (a.records u)[i].target, (a.records u)[i].weight⟩ :: (Adjacency.rows a).outEdgesFrom u (i + 1) := by
  have hlength : i < ((Adjacency.rows a).outEdges u).length := by
    simpa [Adjacency.outEdges, Adjacency.records] using hi
  show ((Adjacency.rows a).outEdges u).drop i = _ :: ((Adjacency.rows a).outEdges u).drop (i + 1)
  rw [List.drop_eq_getElem_cons hlength]
  simp [Adjacency.outEdges, Adjacency.records]

theorem outEdgesFrom_rows_of_le {a : Rows n} {u : Fin n} {i : Nat} (hi : (a.records u).length ≤ i) :
    (Adjacency.rows a).outEdgesFrom u i = [] := by
  apply List.drop_eq_nil_of_le
  simpa [Adjacency.outEdges, Adjacency.records] using hi

theorem filterMap_eq_nil {a : Grid n} {u : Fin n} {vs : List (Fin n)} (h : ∀ v ∈ vs, a.contains u v = false) :
    vs.filterMap (a.edge? u) = [] := by
  rw [List.filterMap_eq_nil_iff]
  intro v hv
  rw [Grid.edge?, Grid.weight?, h v hv]
  rfl

/-- Columns in which no flag is set hold no edge. -/
theorem outEdgesFrom_grid_add {a : Grid n} {u : Fin n} {i k : Nat}
    (h : ∀ v ∈ ((List.finRange n).drop i).take k, a.contains u v = false) :
    (Adjacency.grid a).outEdgesFrom u (i + k) = (Adjacency.grid a).outEdgesFrom u i := by
  show ((List.finRange n).drop (i + k)).filterMap (a.edge? u) = ((List.finRange n).drop i).filterMap (a.edge? u)
  rw [← List.drop_drop]
  conv_rhs => rw [← List.take_append_drop k ((List.finRange n).drop i)]
  rw [List.filterMap_append, filterMap_eq_nil h, List.nil_append]

theorem outEdgesFrom_grid_of_contains {a : Grid n} {u v : Fin n} (h : a.contains u v = true) :
    (Adjacency.grid a).outEdgesFrom u v =
      ⟨u, v, a.rawWeight u v⟩ :: (Adjacency.grid a).outEdgesFrom u (v + 1) := by
  have hlength : v.val < (List.finRange n).length := by simp
  have hedge : a.edge? u v = some ⟨u, v, a.rawWeight u v⟩ := by
    rw [Grid.edge?, Grid.weight?, if_pos h]
    rfl
  show ((List.finRange n).drop v).filterMap (a.edge? u) = _
  rw [List.drop_eq_getElem_cons hlength, List.getElem_finRange]
  exact List.filterMap_cons_some hedge

namespace Storage

/-- The first column from `i` on in which a flag is set. -/
theorem occupied?_grid (a : Grid n) (u : Fin n) {i : Nat} (hi : i ≤ n) :
    (Adjacency.grid a).plain.occupied? u i =
      some ((((List.finRange n).drop i).findIdx? (a.contains u)).map (i + ·)) := by
  have hsize : (a.row u).toArray.size = n := Vector.size_toArray _
  have hflags : (a.row u).toArray.extract i n = (((List.finRange n).drop i).map (a.contains u)).toArray := by
    apply Array.ext'
    rw [Array.toList_extract]
    simp [Grid.row, List.extract_eq_take_drop, List.ofFn_eq_map]
  simp only [Adjacency.plain, occupied?, flags?_plain, Option.bind_eq_bind, Option.bind_some, hsize,
    slice?_of_le hi hsize.ge, hflags, List.findIdx?_toArray, List.findIdx?_map]
  rfl

theorem edgeAt?_grid (a : Grid n) (u v : Fin n) :
    (Adjacency.grid a).plain.edgeAt? u v = some ⟨u, v, a.rawWeight u v⟩ := by
  simp only [Adjacency.plain, edgeAt?, getElem?_weights, Option.bind_eq_bind, Option.bind_some]
  rfl

/-- At a place of a vertex there is no edge left, or the next one is found. -/
theorem occupied?_cases (a : Adjacency n) (u : Fin n) {i : Nat} (hi : i ≤ a.width u) :
    (a.plain.occupied? u i = some none ∧ a.outEdgesFrom u i = []) ∨
      ∃ j e, a.plain.occupied? u i = some (some j) ∧ j < a.width u ∧ a.plain.edgeAt? u j = some e ∧
        a.outEdgesFrom u j = e :: a.outEdgesFrom u (j + 1) ∧ a.outEdgesFrom u j = a.outEdgesFrom u i := by
  cases a with
  | rows a =>
    have hsize : (a.records u).plain.size = (a.records u).length := by simp [Row.plain]
    simp only [Adjacency.plain, occupied?, edgeAt?, getElem?_plain, Option.bind_eq_bind, Option.bind_some, hsize]
    by_cases hlt : i < (a.records u).length
    · refine .inr ⟨i, _, ?_, hlt, ?_, outEdgesFrom_rows_of_lt hlt, rfl⟩
      · rw [if_pos hlt]
        rfl
      · rw [Array.getElem?_eq_getElem (hsize ▸ hlt)]
        simp [Row.plain, Record.plain]
    · refine .inl ⟨?_, outEdgesFrom_rows_of_le (Nat.not_lt.1 hlt)⟩
      rw [if_neg hlt]
      rfl
  | grid a =>
    rw [occupied?_grid a u hi]
    cases hfirst : ((List.finRange n).drop i).findIdx? (a.contains u) with
    | none =>
      rw [List.findIdx?_eq_none_iff] at hfirst
      exact .inl ⟨rfl, filterMap_eq_nil hfirst⟩
    | some k =>
      obtain ⟨hk, hset, hunset⟩ := List.findIdx?_eq_some_iff_getElem.1 hfirst
      have hlt : i + k < n := by simpa [Nat.lt_sub_iff_add_lt'] using hk
      have hset : a.contains u ⟨i + k, hlt⟩ = true := by simpa using hset
      have hbefore : ∀ v ∈ ((List.finRange n).drop i).take k, a.contains u v = false := by
        intro v hv
        obtain ⟨j, hj, rfl⟩ := List.mem_take_iff_getElem.1 hv
        simpa using hunset j (by omega)
      exact .inr ⟨i + k, _, rfl, hlt, edgeAt?_grid a u ⟨i + k, hlt⟩, outEdgesFrom_grid_of_contains hset,
        outEdgesFrom_grid_add hbefore⟩

end Storage

namespace Cursor

/-- The edges from a place on up to the vertex at which a cursor stops. -/
inductive Remain (a : Adjacency n) (stop : Nat) : Nat → Nat → List Edge → Prop
  | past {vertex place : Nat} (h : stop ≤ vertex) : Remain a stop vertex place []
  | here {u : Fin n} {place : Nat} {rest : List Edge} (h : u < stop) (hplace : place ≤ a.width u)
    (hrest : Remain a stop (u + 1) 0 rest) : Remain a stop u place (a.outEdgesFrom u place ++ rest)

/-- A plain cursor has these edges of an adjacency left. -/
structure Reads (a : Adjacency n) (c : Cursor) (rest : List Edge) : Prop where
  storage : c.storage = a.plain
  remain : Remain a c.stop c.vertex c.place rest

/-- At the first place of a vertex all the edges of the vertices from there on are left. -/
theorem reads_vertices (a : Adjacency n) {first : Nat} (hfirst : first ≤ n) :
    Reads a ⟨a.plain, first, 0, n⟩ (((List.finRange n).drop first).flatMap a.outEdges) := by
  induction hk : n - first generalizing first with
  | zero =>
    obtain rfl : first = n := by omega
    rw [List.drop_eq_nil_of_le (by simp), List.flatMap_nil]
    exact ⟨rfl, .past (Nat.le_refl _)⟩
  | succ k ih =>
    have hlt : first < n := by omega
    have hrest := (ih (by omega : first + 1 ≤ n) (by omega)).remain
    have hremain := Remain.here (u := ⟨first, hlt⟩) hlt (Nat.zero_le _) hrest
    rw [List.drop_eq_getElem_cons (by simpa using hlt), List.getElem_finRange, List.flatMap_cons]
    rw [outEdgesFrom_zero] at hremain
    exact ⟨rfl, hremain⟩

theorem reads_vertex (a : Adjacency n) (u : Fin n) : Reads a ⟨a.plain, u, 0, u + 1⟩ (a.outEdges u) := by
  have hremain : Remain a (u + 1) u 0 (a.outEdgesFrom u 0 ++ []) :=
    .here (Nat.lt_succ_self u) (Nat.zero_le _) (.past (Nat.le_refl _))
  rw [outEdgesFrom_zero, List.append_nil] at hremain
  exact ⟨rfl, hremain⟩

theorem hasNext?_cases {c : Cursor} {rest : List Edge} (h : c.Reads a rest) :
    ∃ c' : Cursor, c'.Reads a rest ∧ (c.hasNext? = some (false, c') ∧ rest = [] ∨
      c.hasNext? = some (true, c') ∧ ∃ e rest', rest = e :: rest' ∧
        c'.storage.edgeAt? c'.vertex c'.place = some e ∧ { c' with place := c'.place + 1 }.Reads a rest') := by
  obtain ⟨storage, vertex, place, stop⟩ := c
  obtain ⟨rfl, hremain⟩ := h
  change Remain a stop vertex place rest at hremain
  induction hremain with
  | @past vertex place hstop =>
    refine ⟨⟨a.plain, vertex, place, stop⟩, ⟨rfl, .past hstop⟩, .inl ⟨?_, rfl⟩⟩
    rw [hasNext?, if_neg (Nat.not_lt.2 hstop)]
    rfl
  | @here u place rest hu hplace hrest ih =>
    rw [hasNext?, if_pos hu]
    rcases Storage.occupied?_cases a u hplace with ⟨hnone, hnil⟩ | ⟨j, e, hsome, hj, hedge, hnext, hsame⟩
    · -- nothing is left here, so the cursor moves on to the next vertex
      simp only [hnone, hnil, Option.bind_eq_bind, Option.bind_some, List.nil_append]
      exact ih
    · simp only [hsome, Option.bind_eq_bind, Option.bind_some]
      refine ⟨⟨a.plain, u, j, stop⟩, ⟨rfl, ?_⟩, .inr ⟨rfl, e, a.outEdgesFrom u (j + 1) ++ rest, ?_, hedge, rfl, ?_⟩⟩
      · rw [← hsame]
        exact .here hu hj.le hrest
      · rw [← hsame, hnext, List.cons_append]
      · exact .here hu hj hrest

theorem hasNext?_eq {c : Cursor} {rest : List Edge} (h : c.Reads a rest) :
    ∃ c' : Cursor, c.hasNext? = some (!rest.isEmpty, c') ∧ c'.Reads a rest := by
  obtain ⟨c', hreads, ⟨hnext, rfl⟩ | ⟨hnext, e, rest', rfl, -⟩⟩ := hasNext?_cases h
  · exact ⟨c', hnext, hreads⟩
  · exact ⟨c', hnext, hreads⟩

theorem next?_eq {c : Cursor} {rest : List Edge} (h : c.Reads a rest) :
    ∃ c' : Cursor, c.next? = some (rest.head?, c') ∧ c'.Reads a rest.tail := by
  obtain ⟨c', hreads, ⟨hnext, rfl⟩ | ⟨hnext, e, rest', rfl, hedge, hrest⟩⟩ := hasNext?_cases h
  · refine ⟨c', ?_, hreads⟩
    rw [next?, hnext]
    rfl
  · refine ⟨_, ?_, hrest⟩
    simp [next?, hnext, hedge]

/-- A plain cursor answers what the cursor over the adjacency answers, in whatever order it is asked. -/
theorem performAll?_eq {c : Cursor} {d : EdgeCursor n} (h : c.Reads a d.remaining) (calls : List CursorCall) :
    c.performAll? calls = some (d.performAll calls) := by
  induction calls generalizing c d with
  | nil => rfl
  | cons call calls ih =>
    cases call with
    | hasNext =>
      obtain ⟨c', hnext, hreads⟩ := hasNext?_eq h
      rw [← d.remaining_hasNext] at hreads
      simp [performAll?, EdgeCursor.performAll, hnext, ih hreads, d.hasNext_fst]
    | next =>
      obtain ⟨c', hnext, hreads⟩ := next?_eq h
      rw [← d.remaining_next] at hreads
      simp [performAll?, EdgeCursor.performAll, hnext, ih hreads, d.next_fst]

/-- A loop over a cursor is a fold over the edges that it has left. -/
theorem forEach?_eq {c : Cursor} {rest : List Edge} (h : c.Reads a rest) {body : β → Edge → Option β} {value last : β}
    (hlast : rest.foldlM body value = some last) : c.forEach? body value = some last := by
  induction rest generalizing c value with
  | nil =>
    obtain ⟨c', hnext, -⟩ := next?_eq h
    have hturn : Loop.turn? body ⟨c, value, false⟩ = some ⟨c', value, true⟩ := by
      rw [Loop.turn?, hnext]
      rfl
    obtain rfl : value = last := by simpa using hlast
    rw [forEach?, repeatUntil?_of_step rfl hturn, repeatUntil?_of_done rfl]
    rfl
  | cons e rest ih =>
    obtain ⟨c', hnext, hreads⟩ := next?_eq h
    rw [List.foldlM_cons] at hlast
    obtain ⟨next, hbody, hrest⟩ := Option.bind_eq_some_iff.1 hlast
    have hturn : Loop.turn? body ⟨c, value, false⟩ = some ⟨c', next, false⟩ := by
      simp [Loop.turn?, hnext, hbody]
    rw [forEach?, repeatUntil?_of_step rfl hturn]
    exact ih hreads hrest

end Cursor

end Plain

end WeightedGraph
