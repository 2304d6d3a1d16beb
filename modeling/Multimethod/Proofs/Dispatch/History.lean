import Multimethod.Proofs.Dispatch

/-!
# What became of rows that came into dispatch tables

Rows come into a table one by one or by merging another table into it. What has come in, in either
way, is the history of the table: the table finds the last row of its history for some types, and
keeps the types in the order in which they first came in (`tables_hold`).
-/

namespace Multimethod.DispatchTable

variable {t u : DispatchTable} {rows rows' : List Row}

/-- The types that the table has rows for, in the order of the rows. -/
def types (t : DispatchTable) : List (Option TypeId × List TypeId) := t.toList.map Row.types

theorem nodup_types (t : DispatchTable) : t.types.Nodup := by
  refine List.pairwise_map.2 (t.pairwise_toList.imp fun hne heq => ?_)
  exact hne ⟨congrArg Prod.fst heq, congrArg Prod.snd heq⟩

theorem mem_types {r : Option TypeId} {as : List TypeId} :
    (r, as) ∈ t.types ↔ (t.find? r as).isSome := by
  rw [types, List.mem_map, Option.isSome_iff_exists]
  constructor
  · rintro ⟨row, hrow, heq⟩
    cases heq
    exact ⟨row.target, mem_toList.1 hrow⟩
  · rintro ⟨callee, h⟩
    exact ⟨⟨r, as, callee⟩, mem_toList.2 h, rfl⟩

/-! ## The types of a table -/

/-- A row for new types goes to the end, any other takes the place of the one that was there. -/
theorem types_insert (row : Row) : (t.insert row).types =
    if row.types ∈ t.types then t.types else t.types ++ [row.types] := by
  have hmem : row.types ∈ t.types ↔ (t.rows.find? (callCode row.receiver row.args)).isSome := by
    rw [Row.types, mem_types, find?, Option.isSome_map]
    cases h : t.rows.find? (callCode row.receiver row.args) with
    | none => rfl
    | some i =>
      obtain ⟨a, ha, -⟩ := Option.map_eq_some_iff.1 (Catalog.find?_eq_some.1 h)
      rw [Option.bind_some, ha]
      rfl
  simp only [hmem]
  simp only [types, toList, insert, Catalog.put]
  split
  · rename_i i h
    obtain ⟨a, ha, hcode⟩ := Option.map_eq_some_iff.1 (Catalog.find?_eq_some.1 h)
    obtain ⟨hr, has⟩ := callCode_inj.1 hcode
    have htypes : (t.rows.entries.toList.map Row.types)[i]? = some row.types := by
      rw [List.getElem?_map, Array.getElem?_toList, ← Catalog.get?, ha, Option.map_some, Row.types,
        Row.types, hr, has]
    rw [if_pos (by rw [h]; rfl), Array.toList_setIfInBounds, List.map_set]
    obtain ⟨hlt, hget⟩ := List.getElem?_eq_some_iff.1 htypes
    rw [← hget, List.set_getElem_self]
  · rename_i h
    rw [if_neg (by simp [h])]
    simp [Catalog.push]

theorem types_foldl_insert (hnodup : (rows.map Row.types).Nodup) :
    (rows.foldl insert t).types =
      t.types ++ (rows.map Row.types).filter fun k => k ∉ t.types := by
  induction rows generalizing t with
  | nil => simp
  | cons row rows ih =>
    obtain ⟨hhead, htail⟩ := List.nodup_cons.1 hnodup
    rw [List.foldl_cons, ih htail, types_insert, List.map_cons, List.filter_cons]
    split
    · simp [*]
    · rename_i hnew
      have hsame : ((rows.map Row.types).filter fun k => k ∉ t.types ++ [row.types]) =
          (rows.map Row.types).filter fun k => k ∉ t.types := by
        apply List.filter_congr
        intro k hk
        have hne : k ≠ row.types := fun h => hhead (h ▸ hk)
        simp [hne]
      rw [hsame, if_pos (by simpa using hnew), List.append_assoc, List.singleton_append]

/-- The types that are new with a merged table come after the others, in their order. -/
theorem types_merge (t u : DispatchTable) :
    (t.merge u).types = t.types ++ u.types.filter fun k => k ∉ t.types := by
  rw [merge, ← Array.foldl_toList]
  exact types_foldl_insert u.nodup_types

/-! ## Rows that are there already -/

theorem insert_of_mem {row : Row} (h : row ∈ t.toList) : t.insert row = t := by
  obtain ⟨i, hi⟩ := List.mem_iff_getElem?.1 h
  have hfind : t.rows.find? (callCode row.receiver row.args) = some i :=
    Catalog.find?_eq_some.2 (by rw [Catalog.get?, ← Array.getElem?_toList, ← toList, hi]; rfl)
  refine congrArg DispatchTable.mk (Catalog.ext_entries ?_)
  unfold Catalog.put
  split
  · rename_i j hj
    cases hfind.symm.trans hj
    obtain ⟨hlt, rfl⟩ := List.getElem?_eq_some_iff.1 hi
    apply Array.ext'
    rw [Array.toList_setIfInBounds]
    exact List.set_getElem_self hlt
  · rename_i hj
    cases hfind.symm.trans hj

/-- Merging in a table whose rows are all there changes nothing. -/
theorem merge_of_subset (h : ∀ row ∈ u.toList, row ∈ t.toList) : t.merge u = t := by
  rw [merge, ← Array.foldl_toList]
  rw [toList] at h
  generalize u.rows.entries.toList = rows at h ⊢
  induction rows with
  | nil => rfl
  | cons row rows ih =>
    rw [List.foldl_cons, insert_of_mem (h row (.head _))]
    exact ih fun row' hrow' => h row' (.tail _ hrow')

theorem merge_self (t : DispatchTable) : t.merge t = t := merge_of_subset fun _ h => h

/-- Merging the same table in again changes nothing. -/
theorem merge_merge_self (t u : DispatchTable) : (t.merge u).merge u = t.merge u := by
  refine merge_of_subset fun row hrow => mem_toList.2 ?_
  rw [find?_merge_eq, mem_toList.1 hrow]
  rfl

/-! ## Histories -/

/-- A table into which the rows `rows` came, in this order. -/
structure Holds (t : DispatchTable) (rows : List Row) : Prop where
  /-- There is one row for the same types. -/
  distinct : t.types.Nodup
  /-- It leads where the last row for these types led that came in. -/
  latest : ∀ r as,
    t.find? r as = (rows.reverse.find? (·.types = (r, as))).map (·.target)
  /-- The rows stay in the order in which there was a first row for their types. -/
  ordered : t.types.Pairwise fun k k' =>
    (rows.map Row.types).idxOf k < (rows.map Row.types).idxOf k'

namespace Holds

theorem empty : Holds empty [] := ⟨.nil, fun _ _ => rfl, .nil⟩

/-- There is a row for the types of all rows that came in, and for no others. -/
theorem mem_types_iff (H : Holds t rows) {k : Option TypeId × List TypeId} :
    k ∈ t.types ↔ k ∈ rows.map Row.types := by
  obtain ⟨r, as⟩ := k
  rw [mem_types, H.latest, Option.isSome_map, List.find?_isSome, List.mem_map]
  simp only [List.mem_reverse, decide_eq_true_eq]

theorem idxOf_lt (H : Holds t rows) {k : Option TypeId × List TypeId} (h : k ∈ t.types) :
    (rows.map Row.types).idxOf k < (rows.map Row.types).length :=
  List.idxOf_lt_length_iff.2 (H.mem_types_iff.1 h)

/-- What came into a table that is merged in comes in with it. -/
theorem merge (H : Holds t rows) (H' : Holds u rows') : Holds (t.merge u) (rows ++ rows') where
  distinct := nodup_types _
  latest r as := by
    rw [find?_merge_eq, H.latest, H'.latest, List.reverse_append, List.find?_append,
      Option.map_or]
  ordered := by
    have old {k} (hk : k ∈ t.types) :
        ((rows ++ rows').map Row.types).idxOf k = (rows.map Row.types).idxOf k := by
      rw [List.map_append, List.idxOf_append_of_mem (H.mem_types_iff.1 hk)]
    have new {k} (hk : k ∉ t.types) : ((rows ++ rows').map Row.types).idxOf k =
        (rows.map Row.types).length + (rows'.map Row.types).idxOf k := by
      rw [List.map_append, List.idxOf_append_of_notMem fun h => hk (H.mem_types_iff.2 h)]
    have isNew {k} (hk : k ∈ u.types.filter fun k => k ∉ t.types) : k ∉ t.types := by
      simpa using (List.mem_filter.1 hk).2
    rw [types_merge, List.pairwise_append]
    refine ⟨H.ordered.imp_of_mem ?_, (H'.ordered.filter _).imp_of_mem ?_, ?_⟩
    · intro k k' hk hk' hlt
      rwa [old hk, old hk']
    · intro k k' hk hk' hlt
      rw [new (isNew hk), new (isNew hk')]
      omega
    · intro k hk k' hk'
      have := H.idxOf_lt hk
      rw [old hk, new (isNew hk')]
      omega

/-- Adding a row is merging in a table with one row. -/
theorem insert (H : Holds t rows) (row : Row) : Holds (t.insert row) (rows ++ [row]) := by
  have hone : Holds (DispatchTable.empty.insert row) [row] := {
    distinct := nodup_types _
    latest := fun r as => by
      rw [find?_insert, find?_empty, List.reverse_singleton, List.find?_singleton]
      by_cases h : r = row.receiver ∧ as = row.args
      · simp [h, Row.types]
      · have hne : row.types ≠ (r, as) := fun h' =>
          h ⟨(congrArg Prod.fst h').symm, (congrArg Prod.snd h').symm⟩
        simp [h, hne]
    ordered := by
      rw [types_insert]
      exact List.pairwise_singleton _ _ }
  exact H.merge hone

end Holds

/-- What is done to one of some tables. -/
inductive Op where
  /-- A row is added to table `i`. -/
  | insert (i : Nat) (row : Row)
  /-- Table `j` is merged into table `i`. -/
  | merge (i j : Nat)

namespace Op

/-- The tables after a change. -/
def run (ts : Nat → DispatchTable) : Op → Nat → DispatchTable
  | insert i row => Function.update ts i ((ts i).insert row)
  | merge i j => Function.update ts i ((ts i).merge (ts j))

/-- What has come into the tables after a change. -/
def log (rows : Nat → List Row) : Op → Nat → List Row
  | insert i row => Function.update rows i (rows i ++ [row])
  | merge i j => Function.update rows i (rows i ++ rows j)

/-- A change keeps the tables in step with what has come in. -/
theorem run_holds {ts : Nat → DispatchTable} {logs : Nat → List Row}
    (H : ∀ i, Holds (ts i) (logs i)) (o : Op) (i : Nat) : Holds (o.run ts i) (o.log logs i) := by
  cases o with
  | insert j row =>
    rw [run, log]
    by_cases h : i = j
    · subst h
      rw [Function.update_self, Function.update_self]
      exact (H i).insert row
    · rw [Function.update_of_ne h, Function.update_of_ne h]
      exact H i
  | merge j k =>
    rw [run, log]
    by_cases h : i = j
    · subst h
      rw [Function.update_self, Function.update_self]
      exact (H i).merge (H k)
    · rw [Function.update_of_ne h, Function.update_of_ne h]
      exact H i

theorem foldl_holds (ops : List Op) {ts : Nat → DispatchTable} {logs : Nat → List Row}
    (H : ∀ i, Holds (ts i) (logs i)) (i : Nat) :
    Holds (ops.foldl run ts i) (ops.foldl log logs i) := by
  induction ops generalizing ts logs with
  | nil => exact H i
  | cons o ops ih => exact ih (o.run_holds H)

end Op

/-- The tables after some changes, all tables being empty at first. -/
def tables (ops : List Op) : Nat → DispatchTable := ops.foldl Op.run fun _ => empty

/-- What has come into each table by then. -/
def history (ops : List Op) : Nat → List Row := ops.foldl Op.log fun _ => []

/-- However rows are added and tables are merged, every table is a finite map from types to the
targets that came in last, in the order in which the types first came in. A merged table finds what
the second one finds and else what the first one finds, and merging in what has been merged in
already, or is the table itself, changes nothing. -/
theorem tables_hold (ops : List Op) :
    (∀ i, Holds (tables ops i) (history ops i)) ∧
    (∀ (t u : DispatchTable) r as, (t.merge u).find? r as = (u.find? r as).or (t.find? r as)) ∧
    (∀ t : DispatchTable, t.merge t = t) ∧
    ∀ t u : DispatchTable, (t.merge u).merge u = t.merge u :=
  ⟨Op.foldl_holds ops fun _ => Holds.empty, fun _ _ _ _ => find?_merge_eq, merge_self,
    merge_merge_self⟩

end Multimethod.DispatchTable
