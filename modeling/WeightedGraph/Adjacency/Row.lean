import WeightedGraph.Edge

/-!
# Rows of records

The outgoing edges of one vertex in the order in which they came to be.  Writing an edge keeps its place if it
is there already and appends it otherwise, and taking one out keeps the others in order.  The key facts: what
is found after `put` (`weightTo?_put`) and which targets a row holds after `put` and `without`.
-/

namespace WeightedGraph

abbrev Row (V : Type) := List (Record V)

namespace Row

variable {V : Type} [DecidableEq V]

def weightTo? (row : Row V) (t : V) : Option Weight :=
  (row.find? fun r => r.target = t).map (·.weight)

def leadsTo (row : Row V) (t : V) : Bool :=
  row.any fun r => r.target = t

/-- Writes the weight of the edge to `t` where that edge is, or appends the edge. -/
def put (t : V) (w : Weight) : Row V → Row V
  | [] => [⟨t, w⟩]
  | r :: row => if r.target = t then ⟨t, w⟩ :: row else r :: put t w row

/-- Takes the edge to `t` out and keeps the rest in order. -/
def without (row : Row V) (t : V) : Row V :=
  row.eraseP fun r => r.target = t

/-- The vertices that a row leads to, in order. -/
def targets (row : Row V) : List V := row.map (·.target)

theorem leadsTo_eq_true_iff {row : Row V} {t : V} : row.leadsTo t = true ↔ t ∈ row.targets := by
  simp [leadsTo, targets]

theorem isSome_weightTo? (row : Row V) (t : V) : (row.weightTo? t).isSome = row.leadsTo t := by
  induction row with
  | nil => rfl
  | cons r row ih => by_cases h : r.target = t <;> simp_all [weightTo?, leadsTo]

/-- A written edge is found with its new weight, and any other edge as before. -/
theorem weightTo?_put (row : Row V) (t : V) (w : Weight) (t' : V) :
    (row.put t w).weightTo? t' = if t = t' then some w else row.weightTo? t' := by
  induction row with
  | nil => by_cases h : t = t' <;> simp [put, weightTo?, h]
  | cons r row ih =>
    unfold put
    by_cases h : r.target = t
    · by_cases h' : t = t' <;> simp_all [weightTo?]
    · by_cases hr : r.target = t'
      · have : t ≠ t' := fun e => h (hr.trans e.symm)
        simp_all [weightTo?]
      · simp_all [weightTo?]

/-- Writing an edge appends its target if it was missing and moves none. -/
theorem targets_put (row : Row V) (t : V) (w : Weight) :
    (row.put t w).targets = if t ∈ row.targets then row.targets else row.targets ++ [t] := by
  induction row with
  | nil => simp [put, targets]
  | cons r row ih =>
    unfold put
    by_cases h : r.target = t
    · simp [targets, h]
    · have h' : t ≠ r.target := fun e => h e.symm
      have cons (row' : Row V) : targets (r :: row') = r.target :: targets row' := rfl
      simp only [h, ↓reduceIte, cons, ih, List.mem_cons, h', false_or]
      split <;> rfl

/-- Taking an edge out removes the first occurrence of its target. -/
theorem targets_without (row : Row V) (t : V) : (row.without t).targets = row.targets.erase t := by
  induction row with
  | nil => simp [without, targets]
  | cons r row ih =>
    by_cases h : r.target = t <;> simp_all [without, targets]

end Row

end WeightedGraph
