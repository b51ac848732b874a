/-
AuditSettings.Proofs.Toml.UniqueKeys — in an accepted text no table has a
key twice.

A table keeps its entries as a list, and nothing in its type keeps one key
from standing in it twice: the lookup would then show the first and hide
the other. The tables of an accepted text have no such keys, at any depth
(`parse_keys_unique`), so whatever is in a table is found under its key.
The reason is in how trees are made: an entry is put beside the others
only when none of them has its name (`Merged.distinct`).
-/
import AuditSettings.Proofs.Toml.Merging

namespace AuditSettings.Toml

open AuditSettings.Text

/-! ## The tables of a tree -/

mutual

/-- The tables in a value, itself among them if it is one. -/
def Value.tables : Value → List Table
  | .scalar _ _ => []
  | .array _ items => Value.itemTables items
  | .table _ entries => ⟨entries⟩ :: Value.entryTables entries

/-- The tables in some items. -/
def Value.itemTables : List Value → List Table
  | [] => []
  | v :: vs => v.tables ++ Value.itemTables vs

/-- The tables in some entries. -/
def Value.entryTables : List (KeyPart × Value) → List Table
  | [] => []
  | (_, v) :: entries => v.tables ++ Value.entryTables entries

end

namespace Table

/-- A table and all tables in it. -/
def tables (t : Table) : List Table := t :: Value.entryTables t.entries

/-- The names of a table's entries. -/
def names (t : Table) : List String := t.entries.map fun e => e.1.name

/-- Whether no table of a tree has a key twice. -/
def KeysUnique (t : Table) : Prop := ∀ u ∈ t.tables, u.names.Nodup

/-- Where no key stands twice, the lookup finds the one entry of a key. -/
theorem get?_eq_some_iff {t : Table} (h : t.names.Nodup) {key : String} {e : KeyPart × Value} :
    t.get? key = some e ↔ e ∈ t.entries ∧ e.1.name = key ∧
      ∀ f ∈ t.entries, f.1.name = key → f = e := by
  constructor
  · intro hget
    obtain ⟨hkey, before, after, ht, -⟩ := List.find?_eq_some_iff_append.1 hget
    have hmem : e ∈ t.entries := List.mem_of_find?_eq_some hget
    have hname : e.1.name = key := by simpa using hkey
    refine ⟨hmem, hname, fun f hf hfname => ?_⟩
    exact List.inj_on_of_nodup_map h hf hmem (hfname.trans hname.symm)
  · rintro ⟨hmem, hname, hone⟩
    cases hget : t.get? key with
    | none =>
      have := List.find?_eq_none.1 hget e hmem
      simp [hname] at this
    | some f =>
      have hf : f.1.name = key := by simpa using List.find?_some hget
      rw [hone f (List.mem_of_find?_eq_some hget) hf]

end Table

/-! ## Trees without repeated keys -/

namespace Value

theorem names_nodup_of_distinct {entries : List (KeyPart × Value)} (h : EntriesDistinct entries) :
    (Table.mk entries).names.Nodup := by
  induction entries with
  | nil => exact List.nodup_nil
  | cons e entries ih =>
    obtain ⟨hk, -, hrest⟩ := h
    exact List.nodup_cons.2 ⟨hk, ih hrest⟩

mutual

theorem tables_nodup : ∀ {v : Value}, v.Distinct → ∀ u ∈ v.tables, u.names.Nodup
  | .scalar _ _, _, u, hu => by simp [tables] at hu
  | .array _ items, h, u, hu => itemTables_nodup (show ItemsDistinct items from h) u hu
  | .table _ entries, h, u, hu => by
      have hentries : EntriesDistinct entries := h
      rcases List.mem_cons.1 hu with rfl | hu
      · exact names_nodup_of_distinct hentries
      · exact entryTables_nodup hentries u hu

theorem itemTables_nodup : ∀ {vs : List Value}, ItemsDistinct vs →
    ∀ u ∈ itemTables vs, u.names.Nodup
  | [], _, u, hu => by simp [itemTables] at hu
  | v :: vs, h, u, hu => by
      rcases List.mem_append.1 hu with hu | hu
      · exact tables_nodup h.1 u hu
      · exact itemTables_nodup h.2 u hu

theorem entryTables_nodup : ∀ {entries : List (KeyPart × Value)}, EntriesDistinct entries →
    ∀ u ∈ entryTables entries, u.names.Nodup
  | [], _, u, hu => by simp [entryTables] at hu
  | (k, v) :: entries, h, u, hu => by
      rcases List.mem_append.1 hu with hu | hu
      · exact tables_nodup h.2.1 u hu
      · exact entryTables_nodup h.2.2 u hu

end

end Value

/-- The tree of a document has no key twice. -/
theorem Document.table_distinct {d : Document} {t : Table} (h : d.table = .ok t) :
    Value.EntriesDistinct t.entries := by
  rw [Document.table] at h
  split at h
  · cases h
  · rw [Contents.table] at h
    obtain ⟨es, hes, rfl⟩ := exists_of_map_eq_ok h
    exact (Node.addEntries_merged hes trivial).1.distinct

/-- The tree of a document has unique keys. -/
theorem Document.table_keysUnique {d : Document} {t : Table} (h : d.table = .ok t) :
    t.KeysUnique := by
  have hdistinct := table_distinct h
  intro u hu
  rcases List.mem_cons.1 hu with rfl | hu
  · exact Value.names_nodup_of_distinct hdistinct
  · exact Value.entryTables_nodup hdistinct u hu

/-- In every table of an accepted text, however deep, the keys are
different, so that the lookup of a key finds an entry exactly when it is
the one entry of that key. -/
theorem parse_keys_unique {text : List Char} {t : Table} (h : parse text = .ok t) :
    t.KeysUnique ∧ ∀ u ∈ t.tables, ∀ key e, u.get? key = some e ↔
      e ∈ u.entries ∧ e.1.name = key ∧ ∀ f ∈ u.entries, f.1.name = key → f = e := by
  have hunique : t.KeysUnique := by
    rw [parse] at h
    split at h
    · exact Document.table_keysUnique h
    · cases h
  exact ⟨hunique, fun u hu key e => Table.get?_eq_some_iff (hunique u hu)⟩

/-- A table that is opened after one of its own tables, in an element of an
array, and holds an inline table. -/
theorem parse_keys_unique_reopened : ∃ t,
    parse "[[r]]\n[r.a.b]\nx = 1\n[r.a]\ny = \x7bp.q = 2, p.s = [\x7b\x7d]\x7d\n".toList = .ok t ∧
      t.tables.length = 7 ∧ t.KeysUnique := by
  obtain ⟨t, ht⟩ := exists_of_isOk
    (x := parse "[[r]]\n[r.a.b]\nx = 1\n[r.a]\ny = \x7bp.q = 2, p.s = [\x7b\x7d]\x7d\n".toList) (by
      simp only [String.reduceToList]
      decide +kernel)
  have hcount := of_all (fun t => t.tables.length == 7) ht (by
    simp only [String.reduceToList]
    decide +kernel)
  exact ⟨t, ht, by simpa using hcount, (parse_keys_unique ht).1⟩

end AuditSettings.Toml
