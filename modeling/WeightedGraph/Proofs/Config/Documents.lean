import WeightedGraph.Config.Document
import WeightedGraph.Proofs.Json.Tokens

/-!
# Documents of configurations

A document says something about the fields of a configuration: it is an object with the fields in any order, or a list
of their values in the fixed order (`Document`).  What it says describes a configuration if the vertex count is among it
(`Describes`); a draft of everything that has been said makes that configuration (`finish_eq_ok_iff`).
-/

namespace WeightedGraph

theorem GraphKind.name_injective : Function.Injective GraphKind.name := by
  intro a b h
  cases a <;> cases b <;> simp_all [GraphKind.name]

theorem Representation.name_injective : Function.Injective Representation.name := by
  intro a b h
  cases a <;> cases b <;> simp_all [Representation.name]

namespace GraphConfig

open Json

/-- What a document says about one field. -/
inductive Entry
  | vertexCount (n : Nat)
  | kind (k : GraphKind)
  | representation (r : Representation)

def Entry.field : Entry → Field
  | .vertexCount _ => .vertexCount
  | .kind _ => .kind
  | .representation _ => .representation

/-- The ways to write the value of a field. -/
inductive Entry.Value : Entry → List Token → Prop
  | vertexCount {n : Nat} (h : n < 2 ^ 64) : Value (.vertexCount n) [.count n]
  | kind {k : GraphKind} {ts : List Token} (h : Named k.name ts) : Value (.kind k) ts
  | representation {r : Representation} {ts : List Token} (h : Named r.name ts) : Value (.representation r) ts

/-- The ways to write a field, with its name in front of its value. -/
inductive Entry.Member : Entry → List Token → Prop
  | intro {e : Entry} {ts : List Token} (h : e.Value ts) : Member e (.string e.field.name :: .mark ':' :: ts)

/-- The documents that say something about some fields: an object in which no field comes twice, or a list of the
values of the first fields. -/
inductive Document : List Entry → List Token → Prop
  | object {es : List Entry} {ts : List Token} (hfields : (es.map Entry.field).Nodup)
    (h : Separated Entry.Member es ts) : Document es (.mark '\x7b' :: (ts ++ [.mark '\x7d']))
  | list {es : List Entry} {ts : List Token} (hfields : es.map Entry.field <+: [.vertexCount, .kind, .representation])
    (h : Separated Entry.Value es ts) : Document es (.mark '[' :: (ts ++ [.mark ']']))

/-- The configuration has what is said about its fields, and what is not said is left at its default.  The vertex count
has to be said. -/
structure Describes (es : List Entry) (c : GraphConfig) : Prop where
  vertexCount : .vertexCount c.vertexCount ∈ es
  kind : .kind c.kind ∈ es ∨ (∀ k, .kind k ∉ es) ∧ c.kind = .directed
  representation : .representation c.representation ∈ es ∨
    (∀ r, .representation r ∉ es) ∧ c.representation = .adjacencyList

/-- The text is a document that describes a configuration, with nothing but blanks after it. -/
def IsDocument (s : String) (c : GraphConfig) : Prop :=
  ∃ es ts rest, Document es ts ∧ Describes es c ∧ Begins s.toList ts rest ∧ ∀ x ∈ rest, isBlank x = true

variable {es : List Entry} {e : Entry} {f : Field} {d : Draft} {c : GraphConfig} {ts : List Token} {n : Nat}

/-! ### Values -/

theorem value_vertexCount_iff : Entry.Value (.vertexCount n) ts ↔ n < 2 ^ 64 ∧ ts = [.count n] := by
  constructor
  · rintro ⟨h⟩
    exact ⟨h, rfl⟩
  · rintro ⟨h, rfl⟩
    exact .vertexCount h

theorem value_kind_iff {k : GraphKind} : Entry.Value (.kind k) ts ↔ Named k.name ts := by
  constructor
  · rintro (_ | h)
    exact h
  · exact .kind

theorem value_representation_iff {r : Representation} : Entry.Value (.representation r) ts ↔ Named r.name ts := by
  constructor
  · rintro (_ | _ | h)
    exact h
  · exact .representation

theorem Entry.eq_vertexCount (h : e.field = .vertexCount) : ∃ n, e = .vertexCount n := by
  cases e with
  | vertexCount n => exact ⟨n, rfl⟩
  | kind k => contradiction
  | representation r => contradiction

theorem Entry.eq_kind (h : e.field = .kind) : ∃ k, e = .kind k := by
  cases e with
  | vertexCount n => contradiction
  | kind k => exact ⟨k, rfl⟩
  | representation r => contradiction

theorem Entry.eq_representation (h : e.field = .representation) : ∃ r, e = .representation r := by
  cases e with
  | vertexCount n => contradiction
  | kind k => contradiction
  | representation r => exact ⟨r, rfl⟩

/-- The entries of a list come in the order of the fields. -/
theorem eq_of_prefix (hfields : es.map Entry.field <+: [.vertexCount, .kind, .representation]) (hne : es ≠ []) :
    ∃ n, es = [.vertexCount n] ∨ ∃ k, es = [.vertexCount n, .kind k] ∨
      ∃ r, es = [.vertexCount n, .kind k, .representation r] := by
  obtain ⟨e, es, rfl⟩ := List.exists_cons_of_ne_nil hne
  rw [List.map_cons, List.cons_prefix_cons] at hfields
  obtain ⟨he, hfields⟩ := hfields
  obtain ⟨n, rfl⟩ := Entry.eq_vertexCount he
  refine ⟨n, ?_⟩
  cases es with
  | nil => exact .inl rfl
  | cons e es =>
    rw [List.map_cons, List.cons_prefix_cons] at hfields
    obtain ⟨he, hfields⟩ := hfields
    obtain ⟨k, rfl⟩ := Entry.eq_kind he
    refine .inr ⟨k, ?_⟩
    cases es with
    | nil => exact .inl rfl
    | cons e es =>
      rw [List.map_cons, List.cons_prefix_cons, List.prefix_nil, List.map_eq_nil_iff] at hfields
      obtain ⟨he, rfl⟩ := hfields
      obtain ⟨r, rfl⟩ := Entry.eq_representation he
      exact .inr ⟨r, rfl⟩

/-! ### Drafts -/

/-- The draft after something has been said. -/
def Draft.put (d : Draft) : Entry → Draft
  | .vertexCount n => { d with vertexCount := some n }
  | .kind k => { d with kind := some k }
  | .representation r => { d with representation := some r }

/-- What has been said about a field. -/
def Draft.get? (d : Draft) : Field → Option Entry
  | .vertexCount => d.vertexCount.map .vertexCount
  | .kind => d.kind.map .kind
  | .representation => d.representation.map .representation

theorem get?_put : (d.put e).get? f = if e.field = f then some e else d.get? f := by
  cases e <;> cases f <;> rfl

theorem get?_empty : ({} : Draft).get? f = none := by cases f <;> rfl

theorem get?_foldl_put (hnodup : (es.map Entry.field).Nodup) : (es.foldl Draft.put d).get? f = some e ↔
    (e ∈ es ∧ e.field = f) ∨ f ∉ es.map Entry.field ∧ d.get? f = some e := by
  induction es generalizing d with
  | nil => simp
  | cons a es ih =>
    rw [List.map_cons, List.nodup_cons] at hnodup
    rw [List.foldl_cons, ih hnodup.2, get?_put]
    by_cases hf : a.field = f
    · subst f
      have hlater : ¬ (e ∈ es ∧ e.field = a.field) := by
        rintro ⟨he, hfield⟩
        exact hnodup.1 (hfield ▸ List.mem_map_of_mem he)
      rw [if_pos rfl]
      constructor
      · rintro (h | ⟨-, h⟩)
        · contradiction
        · obtain rfl := Option.some.inj h
          exact .inl ⟨List.mem_cons_self, rfl⟩
      · rintro (⟨he, hfield⟩ | ⟨hnot, -⟩)
        · rcases List.mem_cons.1 he with rfl | he
          · exact .inr ⟨hnodup.1, rfl⟩
          · exact absurd ⟨he, hfield⟩ hlater
        · simp at hnot
    · rw [if_neg hf]
      grind

theorem getD_eq_iff {α : Type} {x : Option α} {a default : α} :
    x.getD default = a ↔ x = some a ∨ (∀ b, x ≠ some b) ∧ a = default := by
  cases x with
  | none => simp [eq_comm]
  | some b => simp

/-- What has been said about different fields makes the configuration that it describes. -/
theorem finish_eq_ok_iff (hnodup : (es.map Entry.field).Nodup) :
    (es.foldl Draft.put {}).finish = .ok c ↔ Describes es c := by
  have hget (e : Entry) : (es.foldl Draft.put {}).get? e.field = some e ↔ e ∈ es := by
    rw [get?_foldl_put hnodup, get?_empty]
    simp
  have hcount (n : Nat) : (es.foldl Draft.put {}).vertexCount = some n ↔ .vertexCount n ∈ es := by
    rw [← hget]
    simp [Draft.get?, Entry.field]
  have hkind (k : GraphKind) : (es.foldl Draft.put {}).kind = some k ↔ .kind k ∈ es := by
    rw [← hget]
    simp [Draft.get?, Entry.field]
  have hrepresentation (r : Representation) :
      (es.foldl Draft.put {}).representation = some r ↔ .representation r ∈ es := by
    rw [← hget]
    simp [Draft.get?, Entry.field]
  have hdescribes : Describes es c ↔ (es.foldl Draft.put {}).vertexCount = some c.vertexCount ∧
      (es.foldl Draft.put {}).kind.getD default = c.kind ∧
      (es.foldl Draft.put {}).representation.getD default = c.representation := by
    simp only [getD_eq_iff, ne_eq, hcount, hkind, hrepresentation]
    exact ⟨fun h => ⟨h.vertexCount, h.kind, h.representation⟩, fun h => ⟨h.1, h.2.1, h.2.2⟩⟩
  rw [hdescribes, Draft.finish]
  cases (es.foldl Draft.put {}).vertexCount with
  | none => simp
  | some n =>
    rw [Except.ok.injEq, GraphConfig.mk.injEq, Option.some.injEq]

end GraphConfig

end WeightedGraph
