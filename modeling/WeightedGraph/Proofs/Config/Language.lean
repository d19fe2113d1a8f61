import WeightedGraph.Proofs.Config.Documents

/-!
# The language of configurations

Each reader takes what a document has at its place: a field (`readField_eq_ok_iff`), the fields of an object
(`readObject_eq_ok_iff`), the values of a list (`readList_eq_ok_iff`).  So exactly the documents are read, each as the
configuration that it describes.  A document that describes a configuration without vertices is refused as such, and
every other text is refused as no document (`ofJson_accepts_language`).
-/

namespace WeightedGraph.GraphConfig

open Json

variable {es : List Entry} {f : Field} {d d' : Draft} {c : GraphConfig} {cs rest : List Char} {ts : List Token}
  {unread : List Field}

/-! ### Fields -/

theorem readKind_eq_ok_iff {k : GraphKind} : readNamed GraphKind.values GraphKind.name cs = .ok (k, rest) ↔
    ∃ ts, Named k.name ts ∧ Begins cs ts rest :=
  readNamed_eq_ok_iff GraphKind.mem_values GraphKind.name_injective

theorem readRepresentation_eq_ok_iff {r : Representation} :
    readNamed Representation.values Representation.name cs = .ok (r, rest) ↔
      ∃ ts, Named r.name ts ∧ Begins cs ts rest :=
  readNamed_eq_ok_iff Representation.mem_values Representation.name_injective

theorem Field.find?_name_eq_some_iff {key : String} :
    (Field.values.find? fun f => f.name = key) = some f ↔ f.name = key := by
  constructor
  · intro h
    simpa using List.find?_some h
  · rintro rfl
    cases f <;> rfl

/-- The value of a field is read if no number can go on behind it. -/
theorem readField_eq_ok_iff (hends : EndsNumber rest) : d.readField f cs = .ok (d', rest) ↔
    ∃ e ts, e.field = f ∧ e.Value ts ∧ Begins cs ts rest ∧ d' = d.put e := by
  cases f with
  | vertexCount =>
    rw [Draft.readField, map_eq_ok_iff]
    constructor
    · rintro ⟨⟨n, rest'⟩, hread, hpair⟩
      obtain ⟨rfl, rfl⟩ := Prod.mk.inj hpair
      obtain ⟨hn, hbegins, -⟩ := readCount_eq_ok_iff.1 hread
      exact ⟨_, _, rfl, .vertexCount (le_maxCount_iff.1 hn), hbegins, rfl⟩
    · rintro ⟨e, ts, hfield, hvalue, hbegins, rfl⟩
      obtain ⟨n, rfl⟩ := Entry.eq_vertexCount hfield
      obtain ⟨hn, rfl⟩ := value_vertexCount_iff.1 hvalue
      exact ⟨_, readCount_eq_ok_iff.2 ⟨le_maxCount_iff.2 hn, hbegins, hends⟩, rfl⟩
  | kind =>
    rw [Draft.readField, map_eq_ok_iff]
    constructor
    · rintro ⟨⟨k, rest'⟩, hread, hpair⟩
      obtain ⟨rfl, rfl⟩ := Prod.mk.inj hpair
      obtain ⟨ts, hnamed, hbegins⟩ := readKind_eq_ok_iff.1 hread
      exact ⟨_, ts, rfl, .kind hnamed, hbegins, rfl⟩
    · rintro ⟨e, ts, hfield, hvalue, hbegins, rfl⟩
      obtain ⟨k, rfl⟩ := Entry.eq_kind hfield
      exact ⟨_, readKind_eq_ok_iff.2 ⟨ts, value_kind_iff.1 hvalue, hbegins⟩, rfl⟩
  | representation =>
    rw [Draft.readField, map_eq_ok_iff]
    constructor
    · rintro ⟨⟨r, rest'⟩, hread, hpair⟩
      obtain ⟨rfl, rfl⟩ := Prod.mk.inj hpair
      obtain ⟨ts, hnamed, hbegins⟩ := readRepresentation_eq_ok_iff.1 hread
      exact ⟨_, ts, rfl, .representation hnamed, hbegins, rfl⟩
    · rintro ⟨e, ts, hfield, hvalue, hbegins, rfl⟩
      obtain ⟨r, rfl⟩ := Entry.eq_representation hfield
      exact ⟨_, readRepresentation_eq_ok_iff.2 ⟨ts, value_representation_iff.1 hvalue, hbegins⟩, rfl⟩

/-! ### Objects -/

/-- The reader of fields takes one field, and then the end of the object or a comma and further fields. -/
theorem readFields_eq_ok_iff_field : readFields unread d cs = .ok (c, rest) ↔
    ∃ e ts mid, e.field ∈ unread ∧ Entry.Member e ts ∧ Begins ('"' :: cs) ts mid ∧
      (skipBlanks mid = '\x7d' :: rest ∧ (d.put e).finish = .ok c ∨
        ∃ m m', skipBlanks mid = ',' :: m ∧ skipBlanks m = '"' :: m' ∧
          readFields (unread.erase e.field) (d.put e) m' = .ok (c, rest)) := by
  rw [readFields]
  constructor
  · intro h
    split at h
    · contradiction
    · rename_i key m hkey
      split at h
      · contradiction
      · rename_i f hf
        rw [Field.find?_name_eq_some_iff] at hf
        subst key
        split_ifs at h with hunread
        split at h
        · contradiction
        · rename_i d' mid hfield
          obtain ⟨m', hcolon, hread⟩ := bind_eq_ok_iff.1 hfield
          have hmember (hends : EndsNumber mid) : ∃ e ts, e.field = f ∧ Entry.Member e ts ∧
              Begins ('"' :: cs) ts mid ∧ d' = d.put e := by
            obtain ⟨e, ts, rfl, hvalue, hbegins, hput⟩ := (readField_eq_ok_iff hends).1 hread
            refine ⟨e, _, rfl, .intro hvalue, ?_, hput⟩
            rw [begins_string_iff, skipBlanks_of_not_isBlank rfl]
            exact ⟨cs, m, rfl, hkey, begins_colon_iff.2 ⟨m', hcolon, hbegins⟩⟩
          split at h
          · contradiction
          · rename_i hend
            obtain ⟨e, ts, rfl, hm, hbegins, rfl⟩ := hmember (endsNumber_of_skipBlanks (by decide) hend)
            obtain ⟨c', hfinish, hpair⟩ := map_eq_ok_iff.1 h
            obtain ⟨rfl, rfl⟩ := Prod.mk.inj hpair
            exact ⟨e, ts, mid, hunread, hm, hbegins, .inl ⟨hend, hfinish⟩⟩
          · rename_i m1 hcomma
            obtain ⟨e, ts, rfl, hm, hbegins, rfl⟩ := hmember (endsNumber_of_skipBlanks (by decide) hcomma)
            split at h
            · contradiction
            · rename_i m2 hquote
              exact ⟨e, ts, mid, hunread, hm, hbegins, .inr ⟨m1, m2, hcomma, hquote, h⟩⟩
            · contradiction
            · contradiction
          · contradiction
  · rintro ⟨e, ts, mid, hunread, ⟨hvalue⟩, hbegins, h⟩
    rw [begins_string_iff, skipBlanks_of_not_isBlank rfl] at hbegins
    obtain ⟨m, m1, hm, hkey, hbegins⟩ := hbegins
    obtain ⟨-, rfl⟩ := List.cons.inj hm
    obtain ⟨m2, hcolon, hbegins⟩ := begins_colon_iff.1 hbegins
    have hfind := Field.find?_name_eq_some_iff.2 (Eq.refl e.field.name)
    have hfield (hends : EndsNumber mid) : readColon m1 >>= d.readField e.field = .ok (d.put e, mid) :=
      bind_eq_ok_iff.2 ⟨m2, hcolon, (readField_eq_ok_iff hends).2 ⟨e, _, rfl, hvalue, hbegins, rfl⟩⟩
    rcases h with ⟨hend, hfinish⟩ | ⟨m3, m4, hcomma, hquote, hread⟩
    · have hread := hfield (endsNumber_of_skipBlanks (by decide) hend)
      simp only [hkey, hfind, dif_pos hunread, hread, hend, hfinish]
      rfl
    · have hread' := hfield (endsNumber_of_skipBlanks (by decide) hcomma)
      simp only [hkey, hfind, dif_pos hunread, hread', hcomma, hquote, hread]

/-- Fields begin with the quote of a name. -/
theorem exists_quote_of_members {us : List Token} (h : Separated Entry.Member es ts)
    (hbegins : Begins cs (ts ++ us) rest) : ∃ m, skipBlanks cs = '"' :: m := by
  cases h with
  | last hmember =>
    obtain ⟨-⟩ := hmember
    obtain ⟨m, -, hm, -⟩ := begins_string_iff.1 hbegins
    exact ⟨m, hm⟩
  | cons hmember _ =>
    obtain ⟨-⟩ := hmember
    obtain ⟨m, -, hm, -⟩ := begins_string_iff.1 hbegins
    exact ⟨m, hm⟩

/-- What the reader of fields takes up to the end of an object are different fields that have not been read yet. -/
theorem readFields_eq_ok_iff (hunread : unread.Nodup) : readFields unread d cs = .ok (c, rest) ↔
    ∃ es ts, (es.map Entry.field).Nodup ∧ (∀ e ∈ es, e.field ∈ unread) ∧ Separated Entry.Member es ts ∧
      Begins ('"' :: cs) (ts ++ [.mark '\x7d']) rest ∧ (es.foldl Draft.put d).finish = .ok c := by
  constructor
  · intro h
    -- each field that is read leaves one field less to be read
    induction hlength : unread.length generalizing unread d cs with
    | zero =>
      obtain ⟨e, _, _, he, -⟩ := readFields_eq_ok_iff_field.1 h
      rw [List.length_eq_zero_iff.1 hlength] at he
      contradiction
    | succ k ih =>
      obtain ⟨e, ts, mid, he, hmember, hbegins, hnext⟩ := readFields_eq_ok_iff_field.1 h
      rcases hnext with ⟨hend, hfinish⟩ | ⟨m, m', hcomma, hquote, hread⟩
      · refine ⟨[e], ts, by simp, by simpa using he, .last hmember, ?_, hfinish⟩
        exact begins_append_iff.2 ⟨mid, hbegins, begins_mark_iff.2 ⟨rest, hend, .nil⟩⟩
      · obtain ⟨es, us, hnodup, hfields, hseparated, hbegins', hfinish⟩ :=
          ih (hunread.erase _) hread (by rw [List.length_erase_of_mem he, hlength, Nat.add_sub_cancel])
        refine ⟨e :: es, _, ?_, ?_, .cons hmember hseparated, ?_, hfinish⟩
        · rw [List.map_cons, List.nodup_cons]
          refine ⟨fun hmem => ?_, hnodup⟩
          obtain ⟨e', he', hfield⟩ := List.mem_map.1 hmem
          exact (hunread.mem_erase_iff.1 (hfields e' he')).1 hfield
        · intro e' he'
          rcases List.mem_cons.1 he' with rfl | he'
          · exact he
          · exact List.mem_of_mem_erase (hfields e' he')
        · rw [← hquote, begins_skipBlanks_iff (by simp)] at hbegins'
          rw [List.append_assoc, begins_append_iff]
          exact ⟨mid, hbegins, begins_mark_iff.2 ⟨m, hcomma, hbegins'⟩⟩
  · rintro ⟨es, ts, hnodup, hfields, hseparated, hbegins, hfinish⟩
    induction hseparated generalizing unread d cs with
    | @last e ts hmember =>
      obtain ⟨mid, hmid, hend⟩ := begins_append_iff.1 hbegins
      obtain ⟨rest', hend, hrest⟩ := begins_mark_iff.1 hend
      rw [← begins_nil_iff.1 hrest]
      exact readFields_eq_ok_iff_field.2 ⟨e, ts, mid, hfields e (by simp), hmember, hmid, .inl ⟨hend, hfinish⟩⟩
    | @cons e es ts us hmember hseparated ih =>
      rw [List.map_cons, List.nodup_cons] at hnodup
      rw [List.append_assoc, begins_append_iff] at hbegins
      obtain ⟨mid, hmid, hbegins⟩ := hbegins
      obtain ⟨m, hcomma, hbegins⟩ := begins_mark_iff.1 hbegins
      obtain ⟨m', hquote⟩ := exists_quote_of_members hseparated hbegins
      rw [← begins_skipBlanks_iff (by simp), hquote] at hbegins
      refine readFields_eq_ok_iff_field.2
        ⟨e, ts, mid, hfields e (by simp), hmember, hmid, .inr ⟨m, m', hcomma, hquote, ?_⟩⟩
      refine ih (hunread.erase _) hnodup.2 (fun e' he' => ?_) hbegins hfinish
      refine hunread.mem_erase_iff.2 ⟨fun hfield => hnodup.1 ?_, hfields e' (List.mem_cons_of_mem _ he')⟩
      exact hfield ▸ List.mem_map_of_mem he'

theorem readObject_eq_ok_iff : readObject cs = .ok (c, rest) ↔
    ∃ es ts, (es.map Entry.field).Nodup ∧ Separated Entry.Member es ts ∧ Begins cs (ts ++ [.mark '\x7d']) rest ∧
      Describes es c := by
  have hvalues : Field.values.Nodup := by decide
  have hmem (f : Field) : f ∈ Field.values := by cases f <;> decide
  unfold readObject
  constructor
  · intro h
    split at h
    · contradiction
    · rename_i m hquote
      obtain ⟨es, ts, hnodup, -, hseparated, hbegins, hfinish⟩ := (readFields_eq_ok_iff hvalues).1 h
      rw [← hquote, begins_skipBlanks_iff (by simp)] at hbegins
      exact ⟨es, ts, hnodup, hseparated, hbegins, (finish_eq_ok_iff hnodup).1 hfinish⟩
    · contradiction
    · contradiction
  · rintro ⟨es, ts, hnodup, hseparated, hbegins, hdescribes⟩
    obtain ⟨m, hquote⟩ := exists_quote_of_members hseparated hbegins
    rw [← begins_skipBlanks_iff (by simp), hquote] at hbegins
    simp only [hquote]
    exact (readFields_eq_ok_iff hvalues).2
      ⟨es, ts, hnodup, fun e _ => hmem e.field, hseparated, hbegins, (finish_eq_ok_iff hnodup).2 hdescribes⟩

/-! ### Lists -/

/-- The end of a list, which is not passed, or a comma and a name. -/
theorem readElement_eq_ok_iff {α : Type} {values : List α} {name : α → String} {x : Option α} (hall : ∀ v, v ∈ values)
    (hname : Function.Injective name) : readElement (readNamed values name) cs = .ok (x, rest) ↔
      (x = none ∧ skipBlanks cs = rest ∧ ∃ m, rest = ']' :: m) ∨
        ∃ v ts, x = some v ∧ Named (name v) ts ∧ Begins cs (.mark ',' :: ts) rest := by
  unfold readElement
  constructor
  · intro h
    split at h
    · contradiction
    · rename_i m hend
      obtain ⟨rfl, rfl⟩ := Prod.mk.inj (Except.ok.inj h)
      exact .inl ⟨rfl, hend, m, rfl⟩
    · rename_i m hcomma
      split at h
      · contradiction
      · contradiction
      · obtain ⟨⟨v, rest'⟩, hread, hpair⟩ := map_eq_ok_iff.1 h
        obtain ⟨rfl, rfl⟩ := Prod.mk.inj hpair
        obtain ⟨ts, hnamed, hbegins⟩ := (readNamed_eq_ok_iff hall hname).1 hread
        rw [begins_skipBlanks_iff hnamed.ne_nil] at hbegins
        exact .inr ⟨v, ts, rfl, hnamed, begins_mark_iff.2 ⟨m, hcomma, hbegins⟩⟩
    · contradiction
  · rintro (⟨rfl, hend, m, rfl⟩ | ⟨v, ts, rfl, hnamed, hbegins⟩)
    · simp only [hend]
    · obtain ⟨m, hcomma, hbegins⟩ := begins_mark_iff.1 hbegins
      obtain ⟨c, m', hc, hne⟩ := hnamed.head hbegins
      rw [← begins_skipBlanks_iff hnamed.ne_nil, hc] at hbegins
      have hread := (readNamed_eq_ok_iff hall hname).2 ⟨ts, hnamed, hbegins⟩
      simp only [hcomma, hc]
      split
      · contradiction
      · rename_i hbracket
        exact absurd (List.cons.inj hbracket).1 hne
      · rw [hread]
        rfl

theorem readListEnd_eq_ok_iff : readListEnd cs = .ok rest ↔ Begins cs [.mark ']'] rest := by
  rw [begins_mark_iff]
  simp only [begins_nil_iff, exists_eq_right]
  unfold readListEnd
  split
  · rename_i hcs
    simp [hcs]
  · rename_i m hcs
    simp [hcs]
  · rename_i m hcs
    rw [hcs]
    split <;> simp
  · rename_i hbracket _
    constructor
    · intro h
      contradiction
    · intro hcs
      exact absurd hcs (hbracket _)

theorem readList_eq_ok_iff_steps : readList cs = .ok (c, rest) ↔ ∃ n k r r1 r2 r3, readCount cs = .ok (n, r1) ∧
    readElement (readNamed GraphKind.values GraphKind.name) r1 = .ok (k, r2) ∧
    readElement (readNamed Representation.values Representation.name) r2 = .ok (r, r3) ∧
    readListEnd r3 = .ok rest ∧ c = ⟨n, k.getD default, r.getD default⟩ := by
  have hskip : readCount (skipBlanks cs) = readCount cs := by
    unfold readCount
    rw [skipBlanks_skipBlanks]
  unfold readList
  constructor
  · intro h
    split at h
    · contradiction
    · contradiction
    · simp only [bind, hskip] at h
      obtain ⟨⟨n, r1⟩, hcount, h⟩ := bind_eq_ok_iff.1 h
      obtain ⟨⟨k, r2⟩, hkind, h⟩ := bind_eq_ok_iff.1 h
      obtain ⟨⟨r, r3⟩, hrepresentation, h⟩ := bind_eq_ok_iff.1 h
      obtain ⟨rest', hend, h⟩ := bind_eq_ok_iff.1 h
      obtain ⟨rfl, rfl⟩ := Prod.mk.inj (Except.ok.inj h)
      exact ⟨n, k, r, r1, r2, r3, hcount, hkind, hrepresentation, hend, rfl⟩
  · rintro ⟨n, k, r, r1, r2, r3, hcount, hkind, hrepresentation, hend, rfl⟩
    split
    · rename_i hcs
      simp [readCount, hcs] at hcount
    · rename_i hcs
      simp [readCount, hcs, startsNumber] at hcount
    · simp only [bind, hskip, hcount, hkind, hrepresentation, hend, Except.bind]
      rfl

/-- Where a list ends, its end can be come to without passing it. -/
theorem exists_end_of_begins (h : Begins cs [.mark ']'] rest) :
    ∃ m, skipBlanks cs = ']' :: m ∧ Begins (']' :: m) [.mark ']'] rest := by
  obtain ⟨m, hm, -⟩ := begins_mark_iff.1 h
  rw [← begins_skipBlanks_iff (by simp), hm] at h
  exact ⟨m, hm, h⟩

/-- A list is read if it holds a count, possibly a kind after it, and possibly a representation after that. -/
theorem readList_eq_ok_iff : readList cs = .ok (c, rest) ↔
    ∃ es ts, es.map Entry.field <+: [.vertexCount, .kind, .representation] ∧ Separated Entry.Value es ts ∧
      Begins cs (ts ++ [.mark ']']) rest ∧ Describes es c := by
  have hdescribes {es : List Entry} (hfields : es.map Entry.field <+: [.vertexCount, .kind, .representation]) :
      Describes es c ↔ (es.foldl Draft.put {}).finish = .ok c :=
    (finish_eq_ok_iff (hfields.sublist.nodup (by decide))).symm
  rw [readList_eq_ok_iff_steps]
  simp only [readCount_eq_ok_iff, readElement_eq_ok_iff GraphKind.mem_values GraphKind.name_injective,
    readElement_eq_ok_iff Representation.mem_values Representation.name_injective, readListEnd_eq_ok_iff,
    le_maxCount_iff]
  constructor
  · rintro ⟨n, k, r, r1, r2, r3, ⟨hn, hcount, -⟩, hkind, hrepresentation, hend, rfl⟩
    rcases hkind with ⟨rfl, hskip, m, hm⟩ | ⟨k, ts, rfl, hk, hkind⟩
    · rcases hrepresentation with ⟨rfl, hskip', -⟩ | ⟨r, us, rfl, hr, hrepresentation⟩
      · rw [← hskip', ← hskip, skipBlanks_skipBlanks, begins_skipBlanks_iff (by simp)] at hend
        have hfields : [Entry.vertexCount n].map Entry.field <+: [.vertexCount, .kind, .representation] := ⟨_, rfl⟩
        exact ⟨_, _, hfields, .last (.vertexCount hn), begins_append_iff.2 ⟨r1, hcount, hend⟩,
          (hdescribes hfields).2 rfl⟩
      · -- no comma comes where the list ends
        obtain ⟨m', hcomma, -⟩ := begins_mark_iff.1 hrepresentation
        rw [← hskip, skipBlanks_skipBlanks, hskip, hm] at hcomma
        simp at hcomma
    · rcases hrepresentation with ⟨rfl, hskip, -⟩ | ⟨r, us, rfl, hr, hrepresentation⟩
      · rw [← hskip, begins_skipBlanks_iff (by simp)] at hend
        have hfields : [Entry.vertexCount n, .kind k].map Entry.field <+: [.vertexCount, .kind, .representation] :=
          ⟨_, rfl⟩
        refine ⟨_, _, hfields, .cons (.vertexCount hn) (.last (.kind hk)), ?_, (hdescribes hfields).2 rfl⟩
        rw [List.append_assoc, begins_append_iff]
        exact ⟨r1, hcount, begins_append_iff.2 ⟨r2, hkind, hend⟩⟩
      · have hfields : [Entry.vertexCount n, .kind k, .representation r].map Entry.field <+:
            [.vertexCount, .kind, .representation] := ⟨_, rfl⟩
        refine ⟨_, _, hfields, .cons (.vertexCount hn) (.cons (.kind hk) (.last (.representation hr))), ?_,
          (hdescribes hfields).2 rfl⟩
        rw [List.append_assoc, begins_append_iff]
        refine ⟨r1, hcount, ?_⟩
        rw [← List.cons_append, List.append_assoc, begins_append_iff]
        exact ⟨r2, hkind, begins_append_iff.2 ⟨r3, hrepresentation, hend⟩⟩
  · rintro ⟨es, ts, hfields, hseparated, hbegins, hes⟩
    have hne : es ≠ [] := by
      rintro rfl
      cases hseparated
    rw [hdescribes hfields] at hes
    obtain ⟨n, rfl | ⟨k, rfl | ⟨r, rfl⟩⟩⟩ := eq_of_prefix hfields hne
    · rw [separated_singleton_iff, value_vertexCount_iff] at hseparated
      obtain ⟨hn, rfl⟩ := hseparated
      obtain ⟨r1, hcount, hend⟩ := begins_append_iff.1 hbegins
      obtain ⟨m, hm, hend'⟩ := exists_end_of_begins hend
      exact ⟨n, none, none, r1, _, _, ⟨hn, hcount, hend.endsNumber⟩, .inl ⟨rfl, hm, m, rfl⟩,
        .inl ⟨rfl, skipBlanks_of_not_isBlank rfl, m, rfl⟩, hend', (Except.ok.inj hes).symm⟩
    · simp only [separated_cons_cons_iff, separated_singleton_iff, value_vertexCount_iff, value_kind_iff] at hseparated
      obtain ⟨_, us, ⟨hn, rfl⟩, hk, rfl⟩ := hseparated
      rw [List.append_assoc, begins_append_iff] at hbegins
      obtain ⟨r1, hcount, hbegins⟩ := hbegins
      obtain ⟨r2, hkind, hend⟩ := begins_append_iff.1 hbegins
      obtain ⟨m, hm, hend'⟩ := exists_end_of_begins hend
      exact ⟨n, some k, none, r1, r2, _, ⟨hn, hcount, hkind.endsNumber⟩,
        .inr ⟨k, us, rfl, hk, hkind⟩, .inl ⟨rfl, hm, m, rfl⟩, hend', (Except.ok.inj hes).symm⟩
    · simp only [separated_cons_cons_iff, separated_singleton_iff, value_vertexCount_iff, value_kind_iff,
        value_representation_iff] at hseparated
      obtain ⟨_, _, ⟨hn, rfl⟩, ⟨us, vs, hk, hr, rfl⟩, rfl⟩ := hseparated
      rw [List.append_assoc, begins_append_iff] at hbegins
      obtain ⟨r1, hcount, hbegins⟩ := hbegins
      rw [← List.cons_append, List.append_assoc, begins_append_iff] at hbegins
      obtain ⟨r2, hkind, hbegins⟩ := hbegins
      obtain ⟨r3, hrepresentation, hend⟩ := begins_append_iff.1 hbegins
      exact ⟨n, some k, some r, r1, r2, r3, ⟨hn, hcount, hkind.endsNumber⟩,
        .inr ⟨k, us, rfl, hk, hkind⟩, .inr ⟨r, vs, rfl, hr, hrepresentation⟩, hend, (Except.ok.inj hes).symm⟩

/-! ### Documents -/

theorem read_eq_ok_iff : read cs = .ok (c, rest) ↔ ∃ es ts, Document es ts ∧ Describes es c ∧ Begins cs ts rest := by
  unfold read
  constructor
  · intro h
    split at h
    · contradiction
    · rename_i m hlist
      obtain ⟨es, ts, hfields, hseparated, hbegins, hdescribes⟩ := readList_eq_ok_iff.1 h
      exact ⟨es, _, .list hfields hseparated, hdescribes, begins_mark_iff.2 ⟨m, hlist, hbegins⟩⟩
    · rename_i m hobject
      obtain ⟨es, ts, hnodup, hseparated, hbegins, hdescribes⟩ := readObject_eq_ok_iff.1 h
      exact ⟨es, _, .object hnodup hseparated, hdescribes, begins_mark_iff.2 ⟨m, hobject, hbegins⟩⟩
    · contradiction
  · rintro ⟨es, ts, hdocument, hdescribes, hbegins⟩
    cases hdocument with
    | object hnodup hseparated =>
      obtain ⟨m, hobject, hbegins⟩ := begins_mark_iff.1 hbegins
      simp only [hobject]
      exact readObject_eq_ok_iff.2 ⟨es, _, hnodup, hseparated, hbegins, hdescribes⟩
    | list hfields hseparated =>
      obtain ⟨m, hlist, hbegins⟩ := begins_mark_iff.1 hbegins
      simp only [hlist]
      exact readList_eq_ok_iff.2 ⟨es, _, hfields, hseparated, hbegins, hdescribes⟩

theorem readDocument_eq_ok_iff_isDocument {s : String} : readDocument read s = .ok c ↔ IsDocument s c := by
  simp only [readDocument_eq_ok_iff, read_eq_ok_iff]
  constructor
  · rintro ⟨rest, ⟨es, ts, hdocument, hdescribes, hbegins⟩, hrest⟩
    exact ⟨es, ts, rest, hdocument, hdescribes, hbegins, hrest⟩
  · rintro ⟨es, ts, rest, hdocument, hdescribes, hbegins, hrest⟩
    exact ⟨rest, ⟨es, ts, hdocument, hdescribes, hbegins⟩, hrest⟩

theorem ofJson_of_error {s : String} {e : ReadError} (h : readDocument read s = .error e) :
    ofJson s = .error (.invalidConfig e.message) := by
  simp only [ofJson, h]
  rfl

theorem ofJson_of_ok {s : String} (h : readDocument read s = .ok c) :
    ofJson s = if c.vertexCount = 0 then .error .zeroVertices else .ok c := by
  simp only [ofJson, h, Except.mapError, bind, Except.bind, validate]
  by_cases hzero : c.vertexCount = 0
  · simp only [if_pos hzero]
  · simp only [if_neg hzero]
    rfl

/-- Exactly the documents of configurations with a vertex are accepted; those of configurations without one are refused
as such, and every other text is refused as no document. -/
theorem ofJson_accepts_language (s : String) :
    (∀ c, ofJson s = .ok c ↔ c.vertexCount ≠ 0 ∧ IsDocument s c) ∧
    (ofJson s = .error .zeroVertices ↔ ∃ c, c.vertexCount = 0 ∧ IsDocument s c) ∧
    ((∃ problem, ofJson s = .error (.invalidConfig problem)) ↔ ¬ ∃ c, IsDocument s c) := by
  simp only [← readDocument_eq_ok_iff_isDocument]
  cases h : readDocument read s with
  | error e =>
    rw [ofJson_of_error h]
    simp
  | ok c =>
    rw [ofJson_of_ok h]
    split_ifs with hzero
    · refine ⟨fun c' => ?_, ?_, ?_⟩
      · constructor
        · intro h
          contradiction
        · rintro ⟨hpos, h⟩
          rw [← Except.ok.inj h] at hpos
          exact absurd hzero hpos
      · simpa using hzero
      · simp
    · refine ⟨fun c' => ?_, ?_, ?_⟩
      · constructor
        · intro h
          rw [← Except.ok.inj h]
          exact ⟨hzero, rfl⟩
        · rintro ⟨-, h⟩
          rw [Except.ok.inj h]
      · simp [hzero]
      · simp

end WeightedGraph.GraphConfig
