import Mathlib
import WeightedGraph.Search.Repeat

/-!
# Plain arrays

Arrays with numbers for the places in them.  What concerns a place that an array does not have comes to nothing,
and so does a loop in which a step does, or which never ends: whatever has a value has kept within bounds and has
ended.
-/

namespace WeightedGraph.Plain

variable {α ε ρ σ τ : Type}

/-- The array after a place in it has been written. -/
def write? (xs : Array α) (i : Nat) (x : α) : Option (Array α) := if h : i < xs.size then some (xs.set i x) else none

/-- The part of an array from one place up to another. -/
def slice? (xs : Array α) (first last : Nat) : Option (Array α) :=
  if first ≤ last ∧ last ≤ xs.size then some (xs.extract first last) else none

def swap? (xs : Array α) (i j : Nat) : Option (Array α) :=
  if h : i < xs.size ∧ j < xs.size then some (xs.swap i j h.1 h.2) else none

/-- The array without a place in it; what comes after it moves up. -/
def takeOut? (xs : Array α) (i : Nat) : Option (Array α) := if h : i < xs.size then some (xs.eraseIdx i) else none

/-- A count that goes down by one. -/
def decrement? : Nat → Option Nat
  | 0 => none
  | count + 1 => some count

/-- A round of a loop: its end, or where to go on. -/
def round (done : σ → Bool) (step : σ → Option σ) : σ →. σ ⊕ σ := fun s =>
  if done s then Part.some (.inl s) else (step s : Part σ).map .inr

open Classical in
/-- Takes steps until `done` holds. -/
noncomputable def repeatUntil? (done : σ → Bool) (step : σ → Option σ) (s : σ) : Option σ :=
  ((round done step).fix s).toOption

theorem write?_of_lt {xs : Array α} {i : Nat} (h : i < xs.size) (x : α) : write? xs i x = some (xs.set i x) :=
  dif_pos h

theorem slice?_of_le {xs : Array α} {first last : Nat} (hfirst : first ≤ last) (hlast : last ≤ xs.size) :
    slice? xs first last = some (xs.extract first last) := if_pos ⟨hfirst, hlast⟩

theorem swap?_of_lt {xs : Array α} {i j : Nat} (hi : i < xs.size) (hj : j < xs.size) :
    swap? xs i j = some (xs.swap i j) := dif_pos ⟨hi, hj⟩

theorem takeOut?_of_lt {xs : Array α} {i : Nat} (h : i < xs.size) : takeOut? xs i = some (xs.eraseIdx i) := dif_pos h

open Classical in
theorem repeatUntil?_of_done {done : σ → Bool} {step : σ → Option σ} {s : σ} (h : done s = true) :
    repeatUntil? done step s = some s := by
  have hround : Sum.inl s ∈ round done step s := by
    rw [round, if_pos h]
    exact Part.mem_some _
  rw [repeatUntil?, Part.toOption_eq_some_iff]
  exact PFun.fix_stop hround

theorem repeatUntil?_of_step {done : σ → Bool} {step : σ → Option σ} {s t : σ} (h : done s = false)
    (hstep : step s = some t) : repeatUntil? done step s = repeatUntil? done step t := by
  have hround : Sum.inr t ∈ round done step s := by
    rw [round, if_neg (by simp [h]), hstep]
    simp
  unfold repeatUntil?
  congr 1
  exact PFun.fix_fwd_eq hround

/-- A loop has a value if it does, step by step, what a loop does that ends. -/
theorem repeatUntil?_eq {done : σ → Bool} {step : σ → σ} {rank : σ → Nat × Nat}
    {smaller : ∀ s, done s = false → SmallerRank (rank (step s)) (rank s)} {plain : σ → τ} {done' : τ → Bool}
    {step' : τ → Option τ} (hdone : ∀ s, done' (plain s) = done s)
    (hstep : ∀ s, done s = false → step' (plain s) = some (plain (step s))) (s : σ) :
    repeatUntil? done' step' (plain s) = some (plain (repeatUntil done step rank smaller s)) := by
  fun_induction repeatUntil done step rank smaller s with
  | case1 s h => rw [repeatUntil?_of_done ((hdone s).trans h)]
  | case2 s h ih =>
    have hnot : done s = false := by simpa using h
    rw [repeatUntil?_of_step ((hdone s).trans hnot) (hstep s hnot), ih]

/-- A fold has a value if each of its steps has the value that a step of another fold leads to. -/
theorem foldlM_map_eq {step : σ → ρ → σ} {plain : σ → τ} {item : ρ → ε} {step' : τ → ε → Option τ}
    (hstep : ∀ s r, step' (plain s) (item r) = some (plain (step s r))) (rs : List ρ) (s : σ) :
    (rs.map item).foldlM step' (plain s) = some (plain (rs.foldl step s)) := by
  induction rs generalizing s with
  | nil => rfl
  | cons r rs ih =>
    rw [List.map_cons, List.foldlM_cons, hstep, List.foldl_cons]
    exact ih (step s r)

end WeightedGraph.Plain
