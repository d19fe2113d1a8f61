import WeightedGraph.Adjacency.Basic
import WeightedGraph.Proofs.Plain.Arrays

/-!
# Plain storage

The edges of a graph as they lie in memory: an array of records for every vertex, or a weight and a flag for every
pair of vertices, one row of the matrix after the other.  What is done to an adjacency is done to the arrays as well,
and no place is looked for that they do not have (`upsert?_plain`, `remove?_plain`, …).
-/

namespace WeightedGraph

namespace Plain

/-- Edges in plain arrays. -/
inductive Storage
  | lists (rows : Array (Array (Record Nat)))
  | matrix (weights : Array Weight) (present : Array Bool) (side : Nat)

/-- The place of the record that leads to `v`. -/
def position (row : Array (Record Nat)) (v : Nat) : Option Nat := row.findIdx? fun r => r.target = v

namespace Storage

/-- No edges, in the given representation, if there is memory. -/
def allocate (n : Nat) : Representation → Except GraphError Storage
  | .adjacencyList => do
    Allocation.reserve n Rows.rowBytes
    return .lists (.replicate n #[])
  | .adjacencyMatrix => do
    let cells := n * n
    if Allocation.maxCount < cells then throw (.capacityOverflow n)
    Allocation.reserve cells Grid.weightBytes
    Allocation.reserve cells Grid.flagBytes
    return .matrix (.replicate cells 0.0) (.replicate cells false) n

def contains? : Storage → Nat → Nat → Option Bool
  | .lists rows, u, v => do
    let row ← rows[u]?
    return (position row v).isSome
  | .matrix _ present side, u, v => present[u * side + v]?

/-- The weight of the edge from `u` to `v`, if there is one. -/
def weight? : Storage → Nat → Nat → Option (Option Weight)
  | .lists rows, u, v => do
    let row ← rows[u]?
    return (row.find? fun r => r.target = v).map (·.weight)
  | .matrix weights present side, u, v => do
    let set ← present[u * side + v]?
    if set then
      let w ← weights[u * side + v]?
      return some w
    else return none

/-- Makes room for one more record of each of the vertices. -/
def reserve? : Storage → List Nat → Option Unit
  | .lists rows, us => us.forM fun u => do
    let _ ← rows[u]?
  | .matrix .., _ => some ()

/-- Writes the edge from `u` to `v`, and says whether it is new. -/
def upsert? : Storage → Nat → Nat → Weight → Option (Bool × Storage)
  | .lists rows, u, v, w => do
    let row ← rows[u]?
    match position row v with
    | some i =>
      let r ← row[i]?
      let row ← write? row i ⟨r.target, w⟩
      let rows ← write? rows u row
      return (false, .lists rows)
    | none =>
      let rows ← write? rows u (row.push ⟨v, w⟩)
      return (true, .lists rows)
  | .matrix weights present side, u, v, w => do
    let weights ← write? weights (u * side + v) w
    let set ← present[u * side + v]?
    let present ← write? present (u * side + v) true
    return (!set, .matrix weights present side)

/-- Takes the edge from `u` to `v` out, and says whether there was one. -/
def remove? : Storage → Nat → Nat → Option (Bool × Storage)
  | .lists rows, u, v => do
    let row ← rows[u]?
    match position row v with
    | some i =>
      let row ← takeOut? row i
      let rows ← write? rows u row
      return (true, .lists rows)
    | none => return (false, .lists rows)
  | .matrix weights present side, u, v => do
    let weights ← write? weights (u * side + v) 0.0
    let set ← present[u * side + v]?
    let present ← write? present (u * side + v) false
    return (set, .matrix weights present side)

/-- The flags of the edges from `u`, by target. -/
def flags? (present : Array Bool) (side u : Nat) : Option (Array Bool) := slice? present (u * side) (u * side + side)

def outDegree? : Storage → Nat → Option Nat
  | .lists rows, u => do
    let row ← rows[u]?
    return row.size
  | .matrix _ present side, u => do
    let flags ← flags? present side u
    return flags.count true

/-- The number of edges to `v`, found by looking everywhere. -/
def inDegree? : Storage → Nat → Option Nat
  | .lists rows, v => some (rows.map fun row => row.countP fun r => r.target = v).sum
  | .matrix _ present side, v => do
    let column ← (List.range side).mapM fun u => present[u * side + v]?
    return column.count true

def clear : Storage → Storage
  | .lists rows => .lists (rows.map fun _ => #[])
  | .matrix weights present side => .matrix (weights.map fun _ => 0.0) (present.map fun _ => false) side

def representation : Storage → Representation
  | .lists _ => .adjacencyList
  | .matrix .. => .adjacencyMatrix

end Storage

end Plain

/-! ### Rows -/

variable {n : Nat}

def Record.plain (r : Record (Fin n)) : Record Nat := ⟨r.target, r.weight⟩

def Row.plain (row : Row (Fin n)) : Array (Record Nat) := (row.map Record.plain).toArray

def Rows.plain (a : Rows n) : Array (Array (Record Nat)) := (a.rows.map Row.plain).toArray

namespace Plain

theorem getElem?_plain (a : Rows n) (u : Fin n) : a.plain[u.val]? = some (a.records u).plain := by
  have hsize : u.val < a.plain.size := by simp [Rows.plain]
  rw [Array.getElem?_eq_getElem hsize]
  simp [Rows.plain, Rows.records, Vector.get]

theorem write?_plain (a : Rows n) (u : Fin n) (row : Row (Fin n)) :
    write? a.plain u row.plain = some (a.setRow u row).plain := by
  have hsize : u.val < a.plain.size := by simp [Rows.plain]
  rw [write?_of_lt hsize]
  simp [Rows.plain, Rows.setRow]

theorem position_plain (row : Row (Fin n)) (v : Fin n) :
    position row.plain v = row.findIdx? fun r => r.target = v := by
  simp [position, Row.plain, List.findIdx?_map, Record.plain, Function.comp_def, Fin.val_inj]

theorem isSome_position (row : Row (Fin n)) (v : Fin n) : (position row.plain v).isSome = row.leadsTo v := by
  rw [position_plain, List.findIdx?_isSome, Row.leadsTo]

theorem put_of_findIdx?_eq_some {row : Row (Fin n)} {v : Fin n} {i : Nat} (w : Weight)
    (h : row.findIdx? (fun r => r.target = v) = some i) : row.put v w = row.set i ⟨v, w⟩ := by
  induction row generalizing i with
  | nil => contradiction
  | cons r row ih =>
    rw [List.findIdx?_cons] at h
    unfold Row.put
    by_cases hr : r.target = v
    · obtain rfl : 0 = i := by simpa [hr] using h
      rw [if_pos hr]
      rfl
    · obtain ⟨j, hj, rfl⟩ : ∃ j, row.findIdx? (fun r => r.target = v) = some j ∧ j + 1 = i := by simpa [hr] using h
      rw [if_neg hr, ih hj]
      rfl

theorem put_of_findIdx?_eq_none {row : Row (Fin n)} {v : Fin n} (w : Weight)
    (h : row.findIdx? (fun r => r.target = v) = none) : row.put v w = row ++ [⟨v, w⟩] := by
  induction row with
  | nil => rfl
  | cons r row ih =>
    have hne : r.target ≠ v ∧ ∀ x ∈ row, x.target ≠ v := by simpa [List.findIdx?_eq_none_iff] using h
    unfold Row.put
    rw [if_neg hne.1, ih (by simpa [List.findIdx?_eq_none_iff] using hne.2), List.cons_append]

/-- Writing an edge overwrites the record at its place, or appends one. -/
theorem put_cases (row : Row (Fin n)) (v : Fin n) (w : Weight) :
    (∃ i r, position row.plain v = some i ∧ row.plain[i]? = some r ∧
      write? row.plain i ⟨r.target, w⟩ = some (row.put v w).plain) ∨
    position row.plain v = none ∧ row.plain.push ⟨v, w⟩ = (row.put v w).plain := by
  rw [position_plain]
  cases hplace : row.findIdx? fun r => r.target = v with
  | none =>
    refine .inr ⟨rfl, ?_⟩
    rw [put_of_findIdx?_eq_none w hplace]
    simp [Row.plain, Record.plain]
  | some i =>
    obtain ⟨hi, htarget, -⟩ := List.findIdx?_eq_some_iff_getElem.1 hplace
    have hsize : i < row.plain.size := by simpa [Row.plain] using hi
    have hread : row.plain[i]? = some ⟨v, row[i].weight⟩ := by
      rw [Array.getElem?_eq_getElem hsize]
      simpa [Row.plain, Record.plain, ← Fin.val_inj] using htarget
    refine .inl ⟨i, _, rfl, hread, ?_⟩
    rw [write?_of_lt hsize, put_of_findIdx?_eq_some w hplace]
    simp [Row.plain, Record.plain]

/-- Taking an edge out takes out the record at its place. -/
theorem without_cases (row : Row (Fin n)) (v : Fin n) :
    (∃ i, position row.plain v = some i ∧ takeOut? row.plain i = some (row.without v).plain) ∨
    position row.plain v = none ∧ row.without v = row := by
  rw [position_plain, Row.without, List.eraseP_eq_eraseIdx]
  cases hplace : row.findIdx? fun r => r.target = v with
  | none => exact .inr ⟨rfl, rfl⟩
  | some i =>
    obtain ⟨hi, -⟩ := List.findIdx?_eq_some_iff_getElem.1 hplace
    have hsize : i < row.plain.size := by simpa [Row.plain] using hi
    refine .inl ⟨i, rfl, ?_⟩
    rw [takeOut?_of_lt hsize]
    simp [Row.plain, List.eraseIdx_map]

end Plain

/-! ### Adjacencies -/

def Adjacency.plain : Adjacency n → Plain.Storage
  | .rows a => .lists a.plain
  | .grid a => .matrix a.weights.toArray a.present.toArray n

namespace Plain

open Grid (cell)

theorem getElem?_present (a : Grid n) (u v : Fin n) :
    a.present.toArray[u.val * n + v.val]? = some (a.contains u v) := by
  have hsize : (cell u v).val < a.present.toArray.size := by simp
  exact Array.getElem?_eq_getElem hsize

theorem getElem?_weights (a : Grid n) (u v : Fin n) :
    a.weights.toArray[u.val * n + v.val]? = some (a.rawWeight u v) := by
  have hsize : (cell u v).val < a.weights.toArray.size := by simp
  exact Array.getElem?_eq_getElem hsize

/-- The cell of two vertices can be written. -/
theorem write?_cell {α : Type} (xs : Vector α (n * n)) (u v : Fin n) (x : α) :
    write? xs.toArray (u.val * n + v.val) x = some (xs.set (cell u v) x (cell u v).isLt).toArray := by
  have hsize : (cell u v).val < xs.toArray.size := by simp
  exact write?_of_lt hsize x

/-- A row of a matrix lies in one piece. -/
theorem flags?_plain (a : Grid n) (u : Fin n) :
    Storage.flags? a.present.toArray n u = some (a.row u).toArray := by
  have hlast : u.val * n + n ≤ a.present.toArray.size := by
    rw [Vector.size_toArray, ← Nat.succ_mul]
    exact Nat.mul_le_mul_right n u.isLt
  rw [Storage.flags?, slice?_of_le (by omega) hlast]
  congr 1
  apply Array.ext
  · rw [Array.size_extract, Nat.min_eq_left hlast, Nat.add_sub_cancel_left, Vector.size_toArray]
  · intro i hi hi'
    simp [Grid.row, Grid.contains, Grid.cell]

namespace Storage

variable (a : Adjacency n)

omit a in
theorem allocate_plain (n : Nat) (r : Representation) :
    allocate n r = (Adjacency.allocate n r).map Adjacency.plain := by
  cases r with
  | adjacencyList =>
    unfold allocate Adjacency.allocate Adjacency.allocateWithin Rows.allocateWithin Allocation.reserve
    cases Allocation.reserveWithin Allocation.addressSpace n Rows.rowBytes with
    | error e => rfl
    | ok =>
      have hempty : (Rows.empty n).plain = Array.replicate n #[] := by
        simp [Rows.plain, Rows.empty, Row.plain]
      show Except.ok (lists (.replicate n #[])) = .ok (lists (Rows.empty n).plain)
      rw [hempty]
  | adjacencyMatrix =>
    unfold allocate Adjacency.allocate Adjacency.allocateWithin Grid.allocateWithin Allocation.reserve
    by_cases hcells : Allocation.maxCount < n * n
    · simp only [hcells, if_true]
      rfl
    · simp only [hcells, if_false]
      cases Allocation.reserveWithin Allocation.addressSpace (n * n) Grid.weightBytes with
      | error e => rfl
      | ok =>
        cases Allocation.reserveWithin Allocation.addressSpace (n * n) Grid.flagBytes with
        | error e => rfl
        | ok => rfl

theorem representation_plain : a.plain.representation = a.representation := by
  cases a <;> rfl

theorem contains?_plain (u v : Fin n) : a.plain.contains? u v = some (a.contains u v) := by
  cases a with
  | rows a =>
    simp only [Adjacency.plain, contains?, getElem?_plain, isSome_position, Option.bind_eq_bind, Option.bind_some]
    rfl
  | grid a => exact getElem?_present a u v

theorem weight?_plain (u v : Fin n) : a.plain.weight? u v = some (a.weight? u v) := by
  cases a with
  | rows a =>
    have hfind :
        ((a.records u).plain.find? fun r => r.target = v.val).map (·.weight) = (a.records u).weightTo? v := by
      simp [Row.plain, Row.weightTo?, Record.plain, List.find?_map, Function.comp_def, Fin.val_inj]
    simp only [Adjacency.plain, weight?, getElem?_plain, hfind, Option.bind_eq_bind, Option.bind_some]
    rfl
  | grid a =>
    simp only [Adjacency.plain, weight?, getElem?_present, getElem?_weights, Option.bind_eq_bind, Option.bind_some]
    show _ = some (if a.contains u v then some (a.rawWeight u v) else none)
    split <;> rfl

theorem reserve?_plain {us : List Nat} (h : ∀ u ∈ us, u < n) : a.plain.reserve? us = some () := by
  cases a with
  | rows a =>
    induction us with
    | nil => rfl
    | cons u us ih =>
      have hread := getElem?_plain a ⟨u, h u List.mem_cons_self⟩
      have hrest := ih fun x hx => h x (List.mem_cons_of_mem _ hx)
      simp only [Adjacency.plain, reserve?, List.forM_eq_forM, List.forM_cons, hread] at hrest ⊢
      exact hrest
  | grid a => rfl

theorem upsert?_plain (u v : Fin n) (w : Weight) :
    a.plain.upsert? u v w = some ((a.upsert u v w).map id Adjacency.plain) := by
  cases a with
  | rows a =>
    simp only [Adjacency.plain, upsert?, getElem?_plain, Option.bind_eq_bind, Option.bind_some]
    rcases put_cases (a.records u) v w with ⟨i, r, hplace, hread, hwrite⟩ | ⟨hplace, hpush⟩
    · have hold : (a.records u).leadsTo v = true := by rw [← isSome_position, hplace]; rfl
      simp only [hplace, hread, hwrite, Option.bind_some, write?_plain]
      simp [Adjacency.upsert, Rows.upsert, hold, Adjacency.plain]
    · have hnew : (a.records u).leadsTo v = false := by rw [← isSome_position, hplace]; rfl
      simp only [hplace, hpush, Option.bind_some, write?_plain]
      simp [Adjacency.upsert, Rows.upsert, hnew, Adjacency.plain]
  | grid a =>
    simp only [Adjacency.plain, upsert?, write?_cell, getElem?_present, Option.bind_eq_bind, Option.bind_some]
    rfl

theorem remove?_plain (u v : Fin n) : a.plain.remove? u v = some ((a.remove u v).map id Adjacency.plain) := by
  cases a with
  | rows a =>
    simp only [Adjacency.plain, remove?, getElem?_plain, Option.bind_eq_bind, Option.bind_some]
    rcases without_cases (a.records u) v with ⟨i, hplace, htake⟩ | ⟨hplace, hsame⟩
    · have hold : (a.records u).leadsTo v = true := by rw [← isSome_position, hplace]; rfl
      simp only [hplace, htake, Option.bind_some, write?_plain]
      simp [Adjacency.remove, Rows.remove, hold, Adjacency.plain]
    · have hnone : (a.records u).leadsTo v = false := by rw [← isSome_position, hplace]; rfl
      have hset : a.setRow u (a.records u) = a := by
        simp [Rows.setRow, Rows.records, Vector.get]
      simp [hplace, Adjacency.remove, Rows.remove, hnone, hsame, hset, Adjacency.plain]
  | grid a =>
    simp only [Adjacency.plain, remove?, write?_cell, getElem?_present, Option.bind_eq_bind, Option.bind_some]
    rfl

theorem outDegree?_plain (u : Fin n) : a.plain.outDegree? u = some (a.outDegree u) := by
  cases a with
  | rows a =>
    simp only [Adjacency.plain, outDegree?, getElem?_plain, Option.bind_eq_bind, Option.bind_some]
    simp [Row.plain, Adjacency.outDegree, Rows.outDegree]
  | grid a =>
    simp only [Adjacency.plain, outDegree?, flags?_plain, Option.bind_eq_bind, Option.bind_some]
    simp [Adjacency.outDegree, Grid.outDegree]

theorem inDegree?_plain (v : Fin n) : a.plain.inDegree? v = some (a.inDegree v) := by
  cases a with
  | rows a =>
    have hrow (row : Row (Fin n)) :
        row.plain.countP (fun r => r.target = v.val) = row.countP fun r => r.target = v := by
      simp [Row.plain, List.countP_map, Record.plain, Function.comp_def, Fin.val_inj]
    simp only [Adjacency.plain, inDegree?, Adjacency.inDegree, Rows.inDegree, List.countP_flatten, Option.some.injEq]
    rw [← Array.sum_toList]
    simp only [Rows.plain, Array.toList_map, Vector.toList_toArray, Vector.toList_map, List.map_map,
      Function.comp_def, hrow]
  | grid a =>
    have hcolumn : ((List.range n).mapM fun u => a.present.toArray[u * n + v.val]?) =
        some ((List.finRange n).map fun u => a.contains u v) := by
      rw [← List.map_coe_finRange_eq_range, List.mapM_map]
      simp only [Function.comp_def, getElem?_present]
      exact List.mapM_pure
    simp only [Adjacency.plain, inDegree?, hcolumn, Option.bind_eq_bind, Option.bind_some]
    simp [Adjacency.inDegree, Grid.inDegree, List.count, List.countP_map, Function.comp_def]

theorem clear_plain : a.plain.clear = a.clear.plain := by
  cases a with
  | rows a => simp [Adjacency.plain, clear, Adjacency.clear, Rows.clear, Rows.plain, Row.plain]
  | grid a => simp [Adjacency.plain, clear, Adjacency.clear, Grid.clear]

end Storage

end Plain

end WeightedGraph
