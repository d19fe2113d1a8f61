import WeightedGraph.Proofs.Graph.Degrees
import WeightedGraph.Proofs.Plain.Storage

/-!
# Cells of a matrix

The cells of a matrix are numbered row by row, and there are as many of them as pairs of vertices (`cell_bijective`).
While their number fits into a word of 64 bits, words number them as natural numbers do (`toNat_wordCell`), the ends of
the rows included, so that a row is a run of cells (`ReadByWords`).

* (changes) Writing an edge and taking one out say whether there was one.  What is written at one pair of vertices is
  found there and nowhere else: the other cells, the other rows and the counts of the other columns stay as they are,
  and the counts of its row and its column differ by the edge that was there and the one that is, so by one at most
  (`Rewritten`).
* (runs) What a cell holds after any requests is what the last of them says that speaks of it (`weight?_performAll`),
  and zero where there is no edge (`rawWeight_eq_of_blank`).
-/

namespace WeightedGraph

open scoped Finset

variable {n : Nat}

/-- A count over all vertices where one answer differs, put without subtraction. -/
theorem card_add_toNat {p q : Fin n → Bool} {v : Fin n} (h : ∀ i, i ≠ v → q i = p i) :
    #{i | q i = true} + (p v).toNat = #{i | p i = true} + (q v).toNat := by
  have hone (b : Bool) : (if b = true then 1 else 0) = b.toNat := by cases b <;> rfl
  have hrest : ∑ i ∈ Finset.univ.erase v, (q i).toNat = ∑ i ∈ Finset.univ.erase v, (p i).toNat :=
    Finset.sum_congr rfl fun i hi => congrArg Bool.toNat (h i (Finset.ne_of_mem_erase hi))
  simp only [Finset.card_filter, hone]
  rw [← Finset.add_sum_erase _ _ (Finset.mem_univ v), ← Finset.add_sum_erase _ _ (Finset.mem_univ v), hrest]
  omega

namespace Grid

/-! ### Numbers of cells -/

theorem cell_bijective : Function.Bijective fun p : Fin n × Fin n => cell p.1 p.2 := by
  rw [Fintype.bijective_iff_injective_and_card]
  constructor
  · intro p q h
    exact Prod.ext_iff.2 (cell_inj.1 h)
  · rw [Fintype.card_prod, Fintype.card_fin, Fintype.card_fin]

/-- The number of a cell as words of 64 bits make it. -/
def wordCell (side u v : UInt64) : UInt64 := u * side + v

theorem row_end_le (u : Fin n) : u.val * n + n ≤ n * n := by
  rw [← Nat.succ_mul]
  exact Nat.mul_le_mul_right n u.isLt

/-- Words that stand for a row and for a place in it, or for the end of it, do not wrap around. -/
theorem toNat_wordCell (hn : n * n ≤ Allocation.maxCount) (u : Fin n) {v : Nat} (hv : v ≤ n) :
    (wordCell (.ofNat n) (.ofNat u) (.ofNat v)).toNat = u * n + v := by
  have hmax : Allocation.maxCount = 2 ^ 64 - 1 := rfl
  have hend := row_end_le u
  have hside : n ≤ n * n := Nat.le_mul_self n
  have hu := u.isLt
  have hword {i : Nat} (hi : i ≤ n) : (UInt64.ofNat i).toNat = i :=
    UInt64.toNat_ofNat_of_lt' (show i < 2 ^ 64 by omega)
  rw [wordCell, UInt64.toNat_add, UInt64.toNat_mul, hword hu.le, hword le_rfl, hword hv,
    Nat.mod_eq_of_lt (show u.val * n < 2 ^ 64 by omega), Nat.mod_eq_of_lt (by omega)]

theorem toNat_wordCell_add_side (hn : n * n ≤ Allocation.maxCount) (u : Fin n) :
    (wordCell (.ofNat n) (.ofNat u) 0 + .ofNat n).toNat = u * n + n := by
  have hword : wordCell (.ofNat n) (.ofNat u) 0 + .ofNat n = wordCell (.ofNat n) (.ofNat u) (.ofNat n) := by
    simp [wordCell]
  rw [hword, toNat_wordCell hn u le_rfl]

/-- A matrix whose arrays are read at places made of words. -/
structure ReadByWords (a : Grid n) : Prop where
  present (u v : Fin n) :
    a.present.toArray[(wordCell (.ofNat n) (.ofNat u) (.ofNat v)).toNat]? = some (a.contains u v)
  weights (u v : Fin n) :
    a.weights.toArray[(wordCell (.ofNat n) (.ofNat u) (.ofNat v)).toNat]? = some (a.rawWeight u v)
  row (u : Fin n) :
    Plain.slice? a.present.toArray (wordCell (.ofNat n) (.ofNat u) 0).toNat
      (wordCell (.ofNat n) (.ofNat u) 0 + .ofNat n).toNat = some (a.row u).toArray
  get_row (u v : Fin n) : (a.row u).get v = a.present.get (cell u v)

theorem readByWords (hn : n * n ≤ Allocation.maxCount) (a : Grid n) : a.ReadByWords where
  present u v := by
    rw [toNat_wordCell hn u v.isLt.le]
    exact Plain.getElem?_present a u v
  weights u v := by
    rw [toNat_wordCell hn u v.isLt.le]
    exact Plain.getElem?_weights a u v
  row u := by
    have hstart : (wordCell (.ofNat n) (.ofNat u) 0).toNat = u * n := toNat_wordCell hn u (Nat.zero_le n)
    rw [hstart, toNat_wordCell_add_side hn]
    exact Plain.flags?_plain a u
  get_row u v := by
    rw [Grid.row, Vector.get_ofFn]
    rfl

/-! ### Requests -/

/-- What changes a matrix. -/
inductive Request (n : Nat)
  | upsert (u v : Fin n) (w : Weight)
  | remove (u v : Fin n)
  | clear

def perform (a : Grid n) : Request n → Grid n
  | .upsert u v w => (a.upsert u v w).2
  | .remove u v => (a.remove u v).2
  | .clear => a.clear

def performAll (a : Grid n) (requests : List (Request n)) : Grid n := requests.foldl perform a

/-- What a request says about the edge from `u` to `v`: nothing, or what there is from now on. -/
def Request.sets? (u v : Fin n) : Request n → Option (Option Weight)
  | .upsert u' v' w => if u' = u ∧ v' = v then some (some w) else none
  | .remove u' v' => if u' = u ∧ v' = v then some none else none
  | .clear => some none

theorem weight?_perform (a : Grid n) (request : Request n) (u v : Fin n) :
    (a.perform request).weight? u v = (request.sets? u v).getD (a.weight? u v) := by
  cases request with
  | upsert u' v' w =>
    rw [perform, weight?_upsert, Request.sets?]
    split_ifs <;> rfl
  | remove u' v' =>
    rw [perform, weight?_remove, Request.sets?]
    split_ifs <;> rfl
  | clear => exact Adjacency.weight?_clear (.grid a) u v

/-- A cell holds what the last request says that speaks of it. -/
theorem weight?_performAll (a : Grid n) (requests : List (Request n)) (u v : Fin n) :
    (a.performAll requests).weight? u v = (requests.reverse.findSome? (Request.sets? u v)).getD (a.weight? u v) := by
  induction requests generalizing a with
  | nil => rfl
  | cons request requests ih =>
    rw [performAll, List.foldl_cons, ← performAll, ih, weight?_perform, List.reverse_cons, List.findSome?_append]
    cases requests.reverse.findSome? (Request.sets? u v) with
    | some x => rfl
    | none => cases h : request.sets? u v <;> simp [h]

theorem blank_perform {a : Grid n} (h : (Adjacency.grid a).Blank) (request : Request n) :
    (Adjacency.grid (a.perform request)).Blank := by
  cases request with
  | upsert u v w => exact h.upsert u v w
  | remove u v => exact h.remove u v
  | clear => exact Adjacency.blank_clear (.grid a)

theorem blank_performAll {a : Grid n} (h : (Adjacency.grid a).Blank) (requests : List (Request n)) :
    (Adjacency.grid (a.performAll requests)).Blank := by
  induction requests generalizing a with
  | nil => exact h
  | cons request requests ih => exact ih (blank_perform h request)

/-- Where nothing has been written, or the edge has been taken out, the weight is zero. -/
theorem rawWeight_eq_of_blank {a : Grid n} (h : (Adjacency.grid a).Blank) (u v : Fin n) :
    a.rawWeight u v = (a.weight? u v).getD 0.0 := by
  unfold weight?
  cases hedge : a.contains u v with
  | false => exact h u v hedge
  | true => rfl

/-! ### Changes of one cell -/

theorem outDegree_eq_card (a : Grid n) (u : Fin n) : a.outDegree u = #{v | a.contains u v = true} :=
  Adjacency.outDegree_eq (Adjacency.distinct_grid a) u

theorem inDegree_eq_card (a : Grid n) (v : Fin n) : a.inDegree v = #{u | a.contains u v = true} :=
  Adjacency.inDegree_eq (Adjacency.distinct_grid a) v

/-- The matrix `b` is `a` but for the edge from `u` to `v`, which has the weight `x` in `b`, if it is an edge. -/
structure Rewritten (a b : Grid n) (u v : Fin n) (x : Option Weight) : Prop where
  contains (u' v' : Fin n) : b.contains u' v' = if u = u' ∧ v = v' then x.isSome else a.contains u' v'
  weight? (u' v' : Fin n) : b.weight? u' v' = if u = u' ∧ v = v' then x else a.weight? u' v'
  rawWeight (u' v' : Fin n) : b.rawWeight u' v' = if u = u' ∧ v = v' then x.getD 0.0 else a.rawWeight u' v'
  row (u' : Fin n) : b.row u' = if u = u' then (a.row u').set v x.isSome else a.row u'
  outDegree_of_ne {u' : Fin n} (h : u' ≠ u) : b.outDegree u' = a.outDegree u'
  outDegree : b.outDegree u + (a.contains u v).toNat = a.outDegree u + x.isSome.toNat
  inDegree_of_ne {v' : Fin n} (h : v' ≠ v) : b.inDegree v' = a.inDegree v'
  inDegree : b.inDegree v + (a.contains u v).toNat = a.inDegree v + x.isSome.toNat

variable {a b : Grid n} {u v : Fin n} {x : Option Weight}

/-- Rows and counts follow the flags. -/
theorem Rewritten.of_cells
    (hcontains : ∀ u' v', b.contains u' v' = if u = u' ∧ v = v' then x.isSome else a.contains u' v')
    (hweight : ∀ u' v', b.rawWeight u' v' = if u = u' ∧ v = v' then x.getD 0.0 else a.rawWeight u' v') :
    Rewritten a b u v x := by
  have hrow {u' : Fin n} (hu : u' ≠ u) (v' : Fin n) : b.contains u' v' = a.contains u' v' := by
    rw [hcontains, if_neg fun h => hu h.1.symm]
  have hcolumn {v' : Fin n} (hv : v' ≠ v) (u' : Fin n) : b.contains u' v' = a.contains u' v' := by
    rw [hcontains, if_neg fun h => hv h.2.symm]
  have hedge : b.contains u v = x.isSome := by rw [hcontains, if_pos ⟨rfl, rfl⟩]
  constructor
  case contains => exact hcontains
  case rawWeight => exact hweight
  case weight? =>
    intro u' v'
    rw [Grid.weight?, hcontains, hweight, Grid.weight?]
    split_ifs <;> cases x <;> simp_all
  case row =>
    intro u'
    ext i hi
    have hentry (a : Grid n) : (a.row u')[i] = a.contains u' ⟨i, hi⟩ := by rw [Grid.row, Vector.getElem_ofFn]
    rw [hentry, hcontains]
    by_cases hu : u = u'
    · simp only [hu, true_and, if_true, Vector.getElem_set, hentry, Fin.ext_iff]
    · simp only [hu, false_and, if_false, hentry]
  case outDegree_of_ne =>
    intro u' hu
    rw [outDegree_eq_card, outDegree_eq_card]
    simp only [hrow hu]
  case outDegree =>
    rw [outDegree_eq_card, outDegree_eq_card, ← hedge]
    exact card_add_toNat fun i hi => hcolumn hi u
  case inDegree_of_ne =>
    intro v' hv
    rw [inDegree_eq_card, inDegree_eq_card]
    simp only [hcolumn hv]
  case inDegree =>
    rw [inDegree_eq_card, inDegree_eq_card, ← hedge]
    exact card_add_toNat (p := fun u' => a.contains u' v) fun i hi => hrow hi v

theorem rewritten_upsert (a : Grid n) (u v : Fin n) (w : Weight) : Rewritten a (a.upsert u v w).2 u v (some w) :=
  .of_cells (a.contains_upsert u v w) (a.rawWeight_upsert u v w)

theorem rewritten_remove (a : Grid n) (u v : Fin n) : Rewritten a (a.remove u v).2 u v none :=
  .of_cells (a.contains_remove u v) (a.rawWeight_remove u v)

/-- Every pair of vertices has a cell of its own, which words find without wrapping around, and a change of an edge is
seen in its cell, its row and the counts of its row and its column alone. -/
theorem cells_independent (hn : n * n ≤ Allocation.maxCount) :
    (Function.Bijective fun p : Fin n × Fin n => cell p.1 p.2) ∧
    (∀ u v : Fin n, (wordCell (.ofNat n) (.ofNat u) (.ofNat v)).toNat = cell u v) ∧
    ∀ requests : List (Request n), let a := (empty n).performAll requests
      a.ReadByWords ∧
      (∀ u v, a.weight? u v = (requests.reverse.findSome? (Request.sets? u v)).join ∧
        a.rawWeight u v = (a.weight? u v).getD 0.0) ∧
      ∀ u v : Fin n,
        (∀ w, (a.upsert u v w).1 = !a.contains u v ∧ Rewritten a (a.upsert u v w).2 u v (some w)) ∧
        (a.remove u v).1 = a.contains u v ∧ Rewritten a (a.remove u v).2 u v none := by
  refine ⟨cell_bijective, fun u v => toNat_wordCell hn u v.isLt.le, fun requests =>
    ⟨readByWords hn _, fun u v => ⟨?_, ?_⟩, fun u v => ⟨fun w => ⟨rfl, rewritten_upsert ..⟩, rfl, rewritten_remove ..⟩⟩⟩
  · have hempty : (empty n).weight? u v = none := by simp [weight?]
    rw [weight?_performAll, hempty]
    cases requests.reverse.findSome? (Request.sets? u v) <;> rfl
  · exact rawWeight_eq_of_blank (blank_performAll Adjacency.blank_empty_grid requests) u v

/-- In the largest matrix whose cells can be numbered, an edge in the last column of the first row is no edge in the
first column of the second one. -/
theorem cells_independent_largest :
    let first : Fin (2 ^ 32 - 1) := ⟨0, by decide⟩
    let second : Fin (2 ^ 32 - 1) := ⟨1, by decide⟩
    let last : Fin (2 ^ 32 - 1) := ⟨2 ^ 32 - 2, by decide⟩
    let a := (empty (2 ^ 32 - 1)).performAll [.clear, .upsert first last 1.0]
    (wordCell (.ofNat (2 ^ 32 - 1)) (.ofNat last) (.ofNat last)).toNat = (2 ^ 32 - 1) * (2 ^ 32 - 1) - 1 ∧
    a.weight? first last = some 1.0 ∧ a.weight? second first = none ∧
    (a.remove first last).2.rawWeight first last = 0.0 ∧
    (a.remove first last).2.outDegree second = a.outDegree second ∧
    (a.upsert second first 2.0).2.weight? first last = some 1.0 := by
  intro first second last a
  obtain ⟨-, hword, hrun⟩ := cells_independent (n := 2 ^ 32 - 1) (by decide)
  obtain ⟨-, hcells, hchanges⟩ := hrun [.clear, .upsert first last 1.0]
  have hwritten : a.weight? first last = some 1.0 := (hcells first last).1
  have hlast : (cell last last).val = (2 ^ 32 - 1) * (2 ^ 32 - 1) - 1 := by
    show (2 ^ 32 - 2) * (2 ^ 32 - 1) + (2 ^ 32 - 2) = (2 ^ 32 - 1) * (2 ^ 32 - 1) - 1
    norm_num
  refine ⟨(hword last last).trans hlast, hwritten, (hcells second first).1, ?_, ?_, ?_⟩
  · rw [(hchanges first last).2.2.rawWeight first last, if_pos ⟨rfl, rfl⟩]
    rfl
  · exact (hchanges first last).2.2.outDegree_of_ne (by decide)
  · rw [((hchanges second first).1 2.0).2.weight? first last, if_neg (by decide)]
    exact hwritten

end Grid

end WeightedGraph
