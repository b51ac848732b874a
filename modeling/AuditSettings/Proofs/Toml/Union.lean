/-
AuditSettings.Proofs.Toml.Union — a table with one more entry, key path by
key path.

Adding an entry to a table is a union of two trees. A path of keys that only
one of them has leads to the same entry as before; one that both have leads
to a table with the older key part and location; and at every level the new
names come after the old ones (`Table.Union`). Two trees have no union when
a path leads to something else than a table in one of them and to anything
in the other, and the key that is refused is the first such on a walk
through the new entry (`insert_unites`).

One step of the union is `Joined`: what becomes of one name. It is read off
the recursion of insertion once, and all that is said of longer paths is an
induction on the path.
-/
import AuditSettings.Proofs.Toml.UniqueKeys

namespace AuditSettings.Toml

open AuditSettings.Text

/-! ## Paths of keys -/

namespace Table

/-- The entry at the end of a path of keys, all but the last of which lead
into tables. -/
def entryAt? (t : Table) : List String → Option (KeyPart × Value)
  | [] => none
  | [name] => t.get? name
  | name :: path => ((t.get? name).bind fun e => e.2.table?).bind fun u => entryAt? u path

/-- The names of the table at the end of a path, in order; none if there is
no table. -/
def namesAt (t : Table) : List String → List String
  | [] => t.names
  | name :: path =>
    match (t.get? name).bind fun e => e.2.table? with
    | some u => namesAt u path
    | none => []

/-- The table of one entry. -/
def single (k : KeyPart) (v : Value) : Table := ⟨[(k, v)]⟩

end Table

/-- A path of keys and the entry that it leads to. -/
abbrev Stop := List String × KeyPart × Value

/-- Stops as they are seen from the table around. -/
def Stop.below (name : String) (stops : List Stop) : List Stop :=
  stops.map fun x => (name :: x.1, x.2)

mutual

/-- What a walk through a value comes to, if it is a table. -/
def Value.walk : Value → List Stop
  | .scalar _ _ => []
  | .array _ _ => []
  | .table _ entries => Value.walkEntries entries

/-- What a walk through some entries comes to: each of them, and right after
it what is in it. -/
def Value.walkEntries : List (KeyPart × Value) → List Stop
  | [] => []
  | (k, v) :: entries =>
    ([k.name], k, v) :: Stop.below k.name v.walk ++ Value.walkEntries entries

end

/-- All entries of a table and of the tables in it, depth first. -/
def Table.walk (t : Table) : List Stop := Value.walkEntries t.entries

/-- Whether two entries of one path keep their trees from being united: one
of them at least is no table. -/
def Clashing (e f : KeyPart × Value) : Prop := e.2.table? = none ∨ f.2.table? = none

/-- Whether a stop is at a path that a table has, and the two entries there
clash. -/
def Table.Clashes (t : Table) (x : Stop) : Prop := ∃ e, t.entryAt? x.1 = some e ∧ Clashing e x.2

/-- A table that unites two others, the older one first. -/
structure Table.Union (t u r : Table) : Prop where
  /-- A path is there when one of them has it. -/
  isSome_iff : ∀ path, (r.entryAt? path).isSome ↔
    (t.entryAt? path).isSome ∨ (u.entryAt? path).isSome
  /-- What only the older one has is as it is there. -/
  old : ∀ path e, t.entryAt? path = some e → u.entryAt? path = none → r.entryAt? path = some e
  /-- What only the newer one has is as it is there. -/
  new : ∀ path e, u.entryAt? path = some e → t.entryAt? path = none → r.entryAt? path = some e
  /-- What both have is a table, with the key part and the location of the
  older one. -/
  both : ∀ path k v e, t.entryAt? path = some (k, v) → u.entryAt? path = some e →
    ∃ entries, r.entryAt? path = some (k, .table v.location entries)
  /-- The names of the older one come first, in their order, and the new
  ones follow in theirs. -/
  names : ∀ path, r.namesAt path =
    t.namesAt path ++ (u.namesAt path).filter (· ∉ t.namesAt path)

/-! ## Unique keys -/

namespace Value

theorem names_distinct_of_nodup {entries : List (KeyPart × Value)}
    (h : (Table.mk entries).names.Nodup) (hentries : ∀ e ∈ entries, e.2.Distinct) :
    EntriesDistinct entries := by
  induction entries with
  | nil => trivial
  | cons e entries ih =>
    obtain ⟨hk, hrest⟩ := List.nodup_cons.1 h
    exact ⟨hk, hentries e List.mem_cons_self,
      ih hrest fun f hf => hentries f (List.mem_cons_of_mem _ hf)⟩

mutual

theorem distinct_of_tables : ∀ {v : Value}, (∀ u ∈ v.tables, u.names.Nodup) → v.Distinct
  | .scalar _ _, _ => trivial
  | .array _ _, h => itemsDistinct_of_tables h
  | .table _ _, h =>
      names_distinct_of_nodup (h _ List.mem_cons_self)
        (forall_distinct_of_tables fun u hu => h u (List.mem_cons_of_mem _ hu))

theorem itemsDistinct_of_tables : ∀ {vs : List Value}, (∀ u ∈ itemTables vs, u.names.Nodup) →
    ItemsDistinct vs
  | [], _ => trivial
  | _ :: _, h =>
      ⟨distinct_of_tables fun u hu => h u (List.mem_append_left _ hu),
        itemsDistinct_of_tables fun u hu => h u (List.mem_append_right _ hu)⟩

theorem forall_distinct_of_tables : ∀ {entries : List (KeyPart × Value)},
    (∀ u ∈ entryTables entries, u.names.Nodup) → ∀ e ∈ entries, e.2.Distinct
  | [], _, e, he => by cases he
  | (k, v) :: entries, h, e, he => by
      rcases List.mem_cons.1 he with rfl | he
      · exact distinct_of_tables fun u hu => h u (List.mem_append_left _ hu)
      · exact forall_distinct_of_tables (fun u hu => h u (List.mem_append_right _ hu)) e he

end

end Value

/-- Unique keys, as a property of the tables of a tree and along its
entries. -/
theorem Table.keysUnique_iff {t : Table} : t.KeysUnique ↔ Value.EntriesDistinct t.entries := by
  constructor
  · intro h
    exact Value.names_distinct_of_nodup (h t List.mem_cons_self)
      (Value.forall_distinct_of_tables fun u hu => h u (List.mem_cons_of_mem _ hu))
  · intro h u hu
    rcases List.mem_cons.1 hu with rfl | hu
    · exact Value.names_nodup_of_distinct h
    · exact Value.entryTables_nodup h u hu

/-! ## One name -/

variable {es fs gs : List (KeyPart × Value)} {k : KeyPart} {v : Value} {e : SyntaxError}

namespace Table

theorem get?_append (es fs : List (KeyPart × Value)) (name : String) :
    (mk (es ++ fs)).get? name = ((mk es).get? name).or ((mk fs).get? name) :=
  List.find?_append

theorem get?_cons (f : KeyPart × Value) (fs : List (KeyPart × Value)) (name : String) :
    (mk (f :: fs)).get? name = if f.1.name = name then some f else (mk fs).get? name := by
  by_cases h : f.1.name = name
  · simp [get?, h]
  · simp [get?, h]

theorem namesAt_of_none {t : Table} {name : String} (h : t.get? name = none)
    (path : List String) : t.namesAt (name :: path) = [] := by
  simp [namesAt, h]

/-- Tables that agree on the first name of a path agree on the path. -/
theorem namesAt_congr {t u : Table} {name : String} (h : t.get? name = u.get? name)
    (path : List String) : t.namesAt (name :: path) = u.namesAt (name :: path) := by
  simp only [namesAt, h]

/-- A path goes on in the table that its first name leads to. -/
theorem namesAt_below {t : Table} {name : String} {k : KeyPart} {l : Location}
    {entries : List (KeyPart × Value)} (h : t.get? name = some (k, .table l entries))
    (path : List String) : t.namesAt (name :: path) = (mk entries).namesAt path := by
  simp [namesAt, h, Value.table?]

theorem get?_eq_none_iff {t : Table} {name : String} : t.get? name = none ↔ name ∉ t.names := by
  simp [get?, names]

end Table

/-- What becomes of one name when tables are united. -/
inductive Joined : Option (KeyPart × Value) → Option (KeyPart × Value) →
    Option (KeyPart × Value) → Prop where
  | neither : Joined none none none
  | old (f : KeyPart × Value) : Joined (some f) none (some f)
  | new (f : KeyPart × Value) : Joined none (some f) (some f)
  | both (k k' : KeyPart) (l l' : Location) {es fs gs : List (KeyPart × Value)}
      (hdistinct : Value.EntriesDistinct fs) (h : insertEntries es fs = .ok gs) :
      Joined (some (k, .table l es)) (some (k', .table l' fs)) (some (k, .table l gs))

namespace Joined

theorem none_right (x : Option (KeyPart × Value)) : Joined x none x := by
  cases x with
  | none => exact .neither
  | some f => exact .old f

theorem none_left (x : Option (KeyPart × Value)) : Joined none x x := by
  cases x with
  | none => exact .neither
  | some f => exact .new f

theorem eq_of_none {x z : Option (KeyPart × Value)} (h : Joined x none z) : z = x := by
  cases h <;> rfl

end Joined

/-- One more entry leaves the other names alone. -/
theorem get?_insertEntry_of_ne (h : insertEntry es k v = .ok gs) {name : String}
    (hname : name ≠ k.name) : (Table.mk gs).get? name = (Table.mk es).get? name := by
  rcases insertEntry_eq_ok h with ⟨-, rfl⟩ | ⟨before, k₀, l₀, existing, after, l, incoming, merged,
    rfl, -, hk₀, -, -, rfl⟩
  · rw [Table.get?_append, Table.get?_cons, if_neg (Ne.symm hname)]
    exact Option.or_none
  · have hne : k₀.name ≠ name := fun heq => hname (heq.symm.trans hk₀)
    simp only [Table.get?_append, Table.get?_cons, hne, ↓reduceIte]

/-- What one more entry makes of its own name. -/
theorem joined_insertEntry (h : insertEntry es k v = .ok gs) (hv : v.Distinct) :
    Joined ((Table.mk es).get? k.name) (some (k, v)) ((Table.mk gs).get? k.name) := by
  rcases insertEntry_eq_ok h with ⟨hnew, rfl⟩ | ⟨before, k₀, l₀, existing, after, l, incoming,
    merged, rfl, hbefore, hk₀, rfl, hmerged, rfl⟩
  · have hnone : (Table.mk es).get? k.name = none := by simpa [Table.get?] using hnew
    rw [Table.get?_append, hnone, Table.get?_cons, if_pos rfl]
    exact .new _
  · have hnone : (Table.mk before).get? k.name = none := by simpa [Table.get?] using hbefore
    simp only [Table.get?_append, hnone, Table.get?_cons, hk₀, ↓reduceIte, Option.none_or]
    exact .both _ _ _ _ hv hmerged

theorem names_insertEntry (h : insertEntry es k v = .ok gs) :
    (Table.mk gs).names =
      (Table.mk es).names ++ [k.name].filter (· ∉ (Table.mk es).names) := by
  rcases insertEntry_eq_ok h with ⟨hnew, rfl⟩ | ⟨before, k₀, l₀, existing, after, l, incoming,
    merged, rfl, -, hk₀, -, -, rfl⟩
  · have hk : k.name ∉ (Table.mk es).names := by
      rintro hmem
      obtain ⟨f, hf, hname⟩ := List.mem_map.1 hmem
      exact hnew f hf hname
    rw [List.filter_cons_of_pos (by simpa using hk), List.filter_nil]
    exact List.map_append
  · simp [Table.names, hk₀]

/-- What becomes of each name when entries are added one by one. -/
theorem joined_insertEntries (h : insertEntries es fs = .ok gs) (hfs : Value.EntriesDistinct fs)
    (name : String) :
    Joined ((Table.mk es).get? name) ((Table.mk fs).get? name) ((Table.mk gs).get? name) := by
  induction fs generalizing es with
  | nil =>
    cases h
    exact .none_right _
  | cons f fs ih =>
    obtain ⟨k, v⟩ := f
    obtain ⟨hk, hv, hrest⟩ := hfs
    rw [insertEntries] at h
    split at h
    · next mid hmid =>
      have hjoined := ih h hrest
      rw [Table.get?_cons]
      split
      · next hname =>
        -- no other entry has the name, so what this one makes of it stays
        subst hname
        have hnone : (Table.mk fs).get? k.name = none := Table.get?_eq_none_iff.2 hk
        rw [hnone] at hjoined
        rw [hjoined.eq_of_none]
        exact joined_insertEntry hmid hv
      · next hname => rwa [get?_insertEntry_of_ne hmid (Ne.symm hname)] at hjoined
    · cases h

theorem names_insertEntries (h : insertEntries es fs = .ok gs) (hfs : Value.EntriesDistinct fs) :
    (Table.mk gs).names =
      (Table.mk es).names ++ (Table.mk fs).names.filter (· ∉ (Table.mk es).names) := by
  induction fs generalizing es with
  | nil =>
    cases h
    simp [Table.names]
  | cons f fs ih =>
    obtain ⟨k, v⟩ := f
    obtain ⟨hk, -, hrest⟩ := hfs
    rw [insertEntries] at h
    split at h
    · next mid hmid =>
      have hkeep : ∀ name ∈ (Table.mk fs).names,
          decide (name ∉ (Table.mk mid).names) = decide (name ∉ (Table.mk es).names) := by
        intro name hname
        have hne : name ≠ k.name := fun heq => hk (heq ▸ hname)
        simp only [← Table.get?_eq_none_iff, get?_insertEntry_of_ne hmid hne]
      rw [ih h hrest, List.filter_congr hkeep, names_insertEntry hmid, List.append_assoc,
        ← List.filter_append]
      rfl
    · cases h

/-! ## Longer paths -/

/-- Tables that give tables to their union have no other entries of one
name. -/
theorem joined_entryAt? : ∀ (path : List String) {es fs gs : List (KeyPart × Value)},
    insertEntries es fs = .ok gs → Value.EntriesDistinct fs →
    Joined ((Table.mk es).entryAt? path) ((Table.mk fs).entryAt? path)
      ((Table.mk gs).entryAt? path)
  | [], _, _, _, _, _ => .neither
  | [name], _, _, _, h, hfs => joined_insertEntries h hfs name
  | name :: name' :: path, es, fs, gs, h, hfs => by
      have hjoined := joined_insertEntries h hfs name
      simp only [Table.entryAt?]
      generalize (Table.mk es).get? name = x at hjoined
      generalize (Table.mk fs).get? name = y at hjoined
      generalize (Table.mk gs).get? name = z at hjoined
      cases hjoined with
      | neither => exact .neither
      | old f => exact .none_right _
      | new f => exact .none_left _
      | both k k' l l' hinside hmerged => exact joined_entryAt? (name' :: path) hmerged hinside

theorem namesAt_insertEntries : ∀ (path : List String) {es fs gs : List (KeyPart × Value)},
    insertEntries es fs = .ok gs → Value.EntriesDistinct fs →
    (Table.mk gs).namesAt path = (Table.mk es).namesAt path ++
      ((Table.mk fs).namesAt path).filter (· ∉ (Table.mk es).namesAt path)
  | [], _, _, _, h, hfs => names_insertEntries h hfs
  | name :: path, es, fs, gs, h, hfs => by
      have hjoined := joined_insertEntries h hfs name
      generalize hes : (Table.mk es).get? name = x at hjoined
      generalize hfs : (Table.mk fs).get? name = y at hjoined
      generalize hgs : (Table.mk gs).get? name = z at hjoined
      cases hjoined with
      | neither =>
        rw [Table.namesAt_of_none hes, Table.namesAt_of_none hfs, Table.namesAt_of_none hgs]
        rfl
      | old f =>
        rw [Table.namesAt_congr (hgs.trans hes.symm), Table.namesAt_of_none hfs, List.filter_nil,
          List.append_nil]
      | new f =>
        rw [Table.namesAt_congr (hgs.trans hfs.symm), Table.namesAt_of_none hes]
        simp
      | both k k' l l' hinside hmerged =>
        rw [Table.namesAt_below hes, Table.namesAt_below hfs, Table.namesAt_below hgs]
        exact namesAt_insertEntries path hmerged hinside

/-- Entries that were added one by one are united with those there were. -/
theorem union_insertEntries (h : insertEntries es fs = .ok gs) (hfs : Value.EntriesDistinct fs) :
    Table.Union ⟨es⟩ ⟨fs⟩ ⟨gs⟩ where
  isSome_iff path := by
    have hjoined := joined_entryAt? path h hfs
    generalize (Table.mk es).entryAt? path = x at hjoined ⊢
    generalize (Table.mk fs).entryAt? path = y at hjoined ⊢
    generalize (Table.mk gs).entryAt? path = z at hjoined ⊢
    cases hjoined <;> simp
  old path f hes hnone := by
    have hjoined := joined_entryAt? path h hfs
    rw [hnone] at hjoined
    rw [hjoined.eq_of_none, hes]
  new path f hnew hnone := by
    have hjoined := joined_entryAt? path h hfs
    rw [hnew, hnone] at hjoined
    generalize (Table.mk gs).entryAt? path = z at hjoined ⊢
    cases hjoined
    rfl
  both path k v f hes hnew := by
    have hjoined := joined_entryAt? path h hfs
    rw [hes, hnew] at hjoined
    generalize (Table.mk gs).entryAt? path = z at hjoined ⊢
    cases hjoined
    exact ⟨_, rfl⟩
  names path := namesAt_insertEntries path h hfs

/-- Where tables were united, no path leads to entries that clash. -/
theorem not_clashing_of_insertEntries (h : insertEntries es fs = .ok gs)
    (hfs : Value.EntriesDistinct fs) {path : List String} {f f' : KeyPart × Value}
    (hf : (Table.mk es).entryAt? path = some f) (hf' : (Table.mk fs).entryAt? path = some f') :
    ¬ Clashing f f' := by
  have hjoined := joined_entryAt? path h hfs
  rw [hf, hf'] at hjoined
  generalize (Table.mk gs).entryAt? path = z at hjoined
  cases hjoined
  simp [Clashing, Value.table?]

/-! ## The first clash -/

namespace Table

/-- Tables that agree on the first name of a path agree on the path. -/
theorem entryAt?_congr {t u : Table} {name : String} (h : t.get? name = u.get? name)
    (path : List String) : t.entryAt? (name :: path) = u.entryAt? (name :: path) := by
  cases path with
  | nil => exact h
  | cons name' path => simp only [entryAt?, h]

/-- A path that leads somewhere begins with a name of the table. -/
theorem exists_of_entryAt? {t : Table} {path : List String} {f : KeyPart × Value}
    (h : t.entryAt? path = some f) : ∃ name rest, path = name :: rest ∧ name ∈ t.names := by
  match path with
  | [] => cases h
  | name :: rest =>
    refine ⟨name, rest, rfl, ?_⟩
    by_contra hnot
    have hnone := get?_eq_none_iff.2 hnot
    cases rest with
    | nil => rw [show t.entryAt? [name] = t.get? name from rfl, hnone] at h; cases h
    | cons name' rest => simp [entryAt?, hnone] at h

/-- A path goes on in the table that its first name leads to. -/
theorem entryAt?_below {t : Table} {name : String} {k : KeyPart} {l : Location}
    {entries : List (KeyPart × Value)} (h : t.get? name = some (k, .table l entries))
    {path : List String} (hpath : path ≠ []) :
    t.entryAt? (name :: path) = (mk entries).entryAt? path := by
  cases path with
  | nil => exact absurd rfl hpath
  | cons name' path => simp [entryAt?, h, Value.table?]

end Table

mutual

/-- A walk through a value comes to the entries that its paths lead to. -/
theorem entryAt?_of_mem_walk : ∀ {v : Value}, v.Distinct → ∀ x ∈ v.walk,
    ∃ l entries, v = .table l entries ∧ (Table.mk entries).entryAt? x.1 = some x.2
  | .scalar _ _, _, x, hx => by cases hx
  | .array _ _, _, x, hx => by cases hx
  | .table l entries, h, x, hx =>
      ⟨l, entries, rfl,
        entryAt?_of_mem_walkEntries (show Value.EntriesDistinct entries from h) x hx⟩

theorem entryAt?_of_mem_walkEntries : ∀ {fs : List (KeyPart × Value)}, Value.EntriesDistinct fs →
    ∀ x ∈ Value.walkEntries fs, (Table.mk fs).entryAt? x.1 = some x.2
  | [], _, x, hx => by cases hx
  | (k, v) :: fs, ⟨hk, hv, hfs⟩, x, hx => by
      have hfirst : (Table.mk ((k, v) :: fs)).get? k.name = some (k, v) := by
        rw [Table.get?_cons, if_pos rfl]
      rcases List.mem_append.1 hx with hx | hx
      · rcases List.mem_cons.1 hx with rfl | hx
        · exact hfirst
        · obtain ⟨⟨path, f⟩, hmem, rfl⟩ := List.mem_map.1 hx
          obtain ⟨l, entries, rfl, hpath⟩ := entryAt?_of_mem_walk hv _ hmem
          rw [Table.entryAt?_below hfirst fun hnil => by rw [hnil] at hpath; cases hpath]
          exact hpath
      · have hrest := entryAt?_of_mem_walkEntries hfs x hx
        obtain ⟨name, path, hx₁, hname⟩ := Table.exists_of_entryAt? hrest
        have hne : k.name ≠ name := fun heq => hk (heq ▸ hname)
        rw [← hrest, hx₁]
        exact Table.entryAt?_congr (by rw [Table.get?_cons, if_neg hne]) path

end

/-- The first of some stops that clashes with a table. -/
def Table.FirstClash (t : Table) (stops : List Stop) (x : Stop) : Prop :=
  ∃ before after, stops = before ++ x :: after ∧ t.Clashes x ∧ ∀ y ∈ before, ¬ t.Clashes y

/-- How a document is refused whose table cannot take the entry of a stop. -/
def Stop.error (x : Stop) : SyntaxError := ⟨.duplicateKey x.2.1.name, x.2.1.location⟩

/-- The first clash inside a table is the first of the entry that holds it,
since the entry itself meets a table. -/
theorem Table.FirstClash.below {k₀ : KeyPart} {l₀ l : Location}
    {existing incoming : List (KeyPart × Value)} {x : Stop}
    (hfind : (Table.mk es).get? k.name = some (k₀, .table l₀ existing))
    (hdistinct : Value.EntriesDistinct incoming)
    (h : FirstClash ⟨existing⟩ (Value.walkEntries incoming) x) :
    FirstClash ⟨es⟩ (Value.walkEntries [(k, .table l incoming)]) (k.name :: x.1, x.2) := by
  obtain ⟨before, after, hwalk, hclash, hbefore⟩ := h
  have hinside {y : Stop} (hy : y ∈ Value.walkEntries incoming) :
      Clashes ⟨es⟩ (k.name :: y.1, y.2) ↔ Clashes ⟨existing⟩ y := by
    have hpath := entryAt?_of_mem_walkEntries hdistinct y hy
    have hne : y.1 ≠ [] := fun hnil => by rw [hnil] at hpath; cases hpath
    simp only [Clashes, entryAt?_below hfind hne]
  refine ⟨([k.name], k, .table l incoming) :: Stop.below k.name before, Stop.below k.name after,
    ?_, (hinside (by simp [hwalk])).2 hclash, fun y hy => ?_⟩
  · simp [Value.walkEntries, Value.walk, hwalk, Stop.below]
  · rcases List.mem_cons.1 hy with rfl | hy
    · rintro ⟨f, hf, hclashing⟩
      rw [show (Table.mk es).entryAt? [k.name] = (Table.mk es).get? k.name from rfl, hfind] at hf
      cases hf
      simp [Clashing, Value.table?] at hclashing
    · obtain ⟨z, hz, rfl⟩ := List.mem_map.1 hy
      exact fun hz' => hbefore z hz ((hinside (by simp [hwalk, hz])).1 hz')

theorem walkEntries_cons (f : KeyPart × Value) (fs : List (KeyPart × Value)) :
    Value.walkEntries (f :: fs) = Value.walkEntries [f] ++ Value.walkEntries fs := by
  simp [Value.walkEntries]

/-- An entry that was added did not clash, so what clashes first after it
clashes first of all. -/
theorem Table.FirstClash.cons {mid : List (KeyPart × Value)} {x : Stop}
    (hmid : insertEntry es k v = .ok mid) (hfs : Value.EntriesDistinct ((k, v) :: fs))
    (h : FirstClash ⟨mid⟩ (Value.walkEntries fs) x) :
    FirstClash ⟨es⟩ (Value.walkEntries ((k, v) :: fs)) x := by
  obtain ⟨hk, hv, hrest⟩ := hfs
  obtain ⟨before, after, hwalk, hclash, hbefore⟩ := h
  have hsame {y : Stop} (hy : y ∈ Value.walkEntries fs) : Clashes ⟨mid⟩ y ↔ Clashes ⟨es⟩ y := by
    obtain ⟨name, path, hy₁, hname⟩ := exists_of_entryAt? (entryAt?_of_mem_walkEntries hrest y hy)
    have hne : name ≠ k.name := fun heq => hk (heq ▸ hname)
    simp only [Clashes, hy₁, entryAt?_congr (get?_insertEntry_of_ne hmid hne) path]
  have hone : insertEntries es [(k, v)] = .ok mid := by simp [insertEntries, hmid]
  have hdistinct : Value.EntriesDistinct [(k, v)] := ⟨by simp, hv, trivial⟩
  refine ⟨Value.walkEntries [(k, v)] ++ before, after, ?_, (hsame (by simp [hwalk])).1 hclash,
    fun y hy => ?_⟩
  · rw [walkEntries_cons, hwalk, List.append_assoc]
  · rcases List.mem_append.1 hy with hy | hy
    · rintro ⟨f, hf, hclashing⟩
      exact not_clashing_of_insertEntries hone hdistinct hf
        (entryAt?_of_mem_walkEntries hdistinct y hy) hclashing
    · exact fun hy' => hbefore y hy ((hsame (by simp [hwalk, hy])).2 hy')

mutual

/-- An entry is refused for the first clash on a walk through it. -/
theorem exists_firstClash {v : Value} {es : List (KeyPart × Value)} {k : KeyPart}
    {e : SyntaxError} (h : insertEntry es k v = .error e) (hv : v.Distinct) :
    ∃ x, Table.FirstClash ⟨es⟩ (Value.walkEntries [(k, v)]) x ∧ e = x.error := by
  rcases insertEntry_eq_error h with ⟨f, hf, hclash, rfl⟩ | ⟨k₀, l₀, existing, l, incoming, hfind,
    rfl, hinside⟩
  · exact ⟨_, ⟨[], _, rfl, ⟨f, hf, hclash⟩, by simp⟩, rfl⟩
  · obtain ⟨x, hx, rfl⟩ := exists_firstClash_entries hinside hv
    exact ⟨_, hx.below hfind hv, rfl⟩
termination_by sizeOf v

theorem exists_firstClash_entries : ∀ {fs es : List (KeyPart × Value)} {e : SyntaxError},
    insertEntries es fs = .error e → Value.EntriesDistinct fs →
    ∃ x, Table.FirstClash ⟨es⟩ (Value.walkEntries fs) x ∧ e = x.error
  | [], es, e, h, _ => by cases h
  | (k, v) :: fs, es, e, h, hfs => by
      rw [insertEntries] at h
      split at h
      · next mid hmid =>
        obtain ⟨x, hx, rfl⟩ := exists_firstClash_entries h hfs.2.2
        exact ⟨x, hx.cons hmid hfs, rfl⟩
      · next e' hentry =>
        cases h
        obtain ⟨x, ⟨before, after, hwalk, hclash, hbefore⟩, rfl⟩ := exists_firstClash hentry hfs.2.1
        refine ⟨x, ⟨before, after ++ Value.walkEntries fs, ?_, hclash, hbefore⟩, rfl⟩
        rw [walkEntries_cons, hwalk, List.append_assoc, List.cons_append]
termination_by fs => sizeOf fs

end

/-! ## Adding an entry to a table -/

/-- Adding an entry to a table without repeated keys succeeds exactly when no
path of keys leads in both to entries of which one is no table. The result
unites the two (`Table.Union`) and has no repeated key either. A refusal is
that of the first clash on a walk through the new entry: its key is said to
be given twice, where it stands. -/
theorem Table.insert_unites {t : Table} {k : KeyPart} {v : Value} (ht : t.KeysUnique)
    (hv : (single k v).KeysUnique) :
    ((∃ r, t.insert k v = .ok r) ↔ ¬ ∃ path e f, t.entryAt? path = some e ∧
      (single k v).entryAt? path = some f ∧ (e.2.table? = none ∨ f.2.table? = none)) ∧
    (∀ r, t.insert k v = .ok r → t.Union (single k v) r ∧ r.KeysUnique) ∧
    ∀ e, t.insert k v = .error e → ∃ before x after, (single k v).walk = before ++ x :: after ∧
      t.Clashes x ∧ (∀ y ∈ before, ¬ t.Clashes y) ∧
      e = ⟨.duplicateKey x.2.1.name, x.2.1.location⟩ := by
  obtain ⟨es⟩ := t
  have hes := keysUnique_iff.1 ht
  have hdistinct : Value.EntriesDistinct [(k, v)] := keysUnique_iff.1 hv
  have hsingle : insertEntries es [(k, v)] = insertEntry es k v := by
    rw [insertEntries]
    cases insertEntry es k v <;> rfl
  cases hinsert : insertEntry es k v with
  | ok gs =>
    have hresult : (mk es).insert k v = .ok ⟨gs⟩ := by simp [insert, hinsert, Except.map]
    have hone := hsingle.trans hinsert
    refine ⟨iff_of_true ⟨_, hresult⟩ ?_, ?_, fun e he => ?_⟩
    · rintro ⟨path, e, f, he, hf, hclash⟩
      exact not_clashing_of_insertEntries hone hdistinct he hf hclash
    · intro r hr
      obtain rfl := Except.ok.inj (hresult.symm.trans hr)
      exact ⟨union_insertEntries hone hdistinct,
        keysUnique_iff.2 (insertEntry_merged hinsert hes hdistinct.2.1).distinct⟩
    · rw [hresult] at he
      cases he
  | error e =>
    have hresult : (mk es).insert k v = .error e := by simp [insert, hinsert, Except.map]
    obtain ⟨x, ⟨before, after, hwalk, hclash, hbefore⟩, hx⟩ :=
      exists_firstClash hinsert hdistinct.2.1
    refine ⟨iff_of_false (by simp [hresult]) (not_not.2 ?_), by simp [hresult], ?_⟩
    · obtain ⟨f, hf, hclashing⟩ := hclash
      refine ⟨x.1, f, x.2, hf, ?_, hclashing⟩
      exact entryAt?_of_mem_walkEntries hdistinct x (by simp [hwalk])
    · intro e' he'
      obtain rfl := Except.error.inj (hresult.symm.trans he')
      exact ⟨before, x, after, hwalk, hclash, hbefore, hx⟩

/-- A table with a table in it. -/
def Table.nested : Table where
  entries :=
    [(⟨"a", ⟨1, 2⟩⟩, .table ⟨1, 1⟩
      [(⟨"b", ⟨2, 1⟩⟩, .scalar ⟨2, 5⟩ (.integer 1)),
        (⟨"c", ⟨3, 1⟩⟩, .table ⟨3, 1⟩ [(⟨"x", ⟨3, 3⟩⟩, .scalar ⟨3, 7⟩ (.boolean true))])])]

/-- More of both tables. -/
def Value.nestedMore : Value :=
  .table ⟨5, 1⟩
    [(⟨"d", ⟨6, 1⟩⟩, .array ⟨6, 5⟩ []),
      (⟨"c", ⟨7, 1⟩⟩, .table ⟨7, 1⟩ [(⟨"y", ⟨7, 3⟩⟩, .scalar ⟨7, 7⟩ (.integer 2))])]

/-- More of both tables, and two values that are there already. -/
def Value.nestedAgain : Value :=
  .table ⟨5, 1⟩
    [(⟨"c", ⟨6, 1⟩⟩, .table ⟨6, 1⟩
        [(⟨"y", ⟨6, 3⟩⟩, .scalar ⟨6, 7⟩ (.integer 2)), (⟨"x", ⟨7, 3⟩⟩, .array ⟨7, 7⟩ [])]),
      (⟨"b", ⟨8, 1⟩⟩, .table ⟨8, 1⟩ [])]

/-- The tables are united at both levels. Of two values that are given again
the deeper one comes first on the walk, and is refused. -/
theorem Table.insert_unites_nested :
    nested.KeysUnique ∧ (single ⟨"a", ⟨5, 2⟩⟩ .nestedMore).KeysUnique ∧
    (single ⟨"a", ⟨5, 2⟩⟩ .nestedAgain).KeysUnique ∧
    (∃ r, nested.insert ⟨"a", ⟨5, 2⟩⟩ .nestedMore = .ok r ∧ r.KeysUnique ∧
      nested.Union (single ⟨"a", ⟨5, 2⟩⟩ .nestedMore) r ∧
      r.namesAt ["a"] = ["b", "c", "d"] ∧ r.namesAt ["a", "c"] = ["x", "y"]) ∧
    nested.insert ⟨"a", ⟨5, 2⟩⟩ .nestedAgain = .error ⟨.duplicateKey "x", ⟨7, 3⟩⟩ ∧
    ∃ before x after, (single ⟨"a", ⟨5, 2⟩⟩ .nestedAgain).walk = before ++ x :: after ∧
      nested.Clashes x ∧ (∀ y ∈ before, ¬ nested.Clashes y) ∧
      x.error = ⟨.duplicateKey "x", ⟨7, 3⟩⟩ := by
  have hnested : nested.KeysUnique := by
    unfold KeysUnique
    decide +kernel
  have hmore : (single ⟨"a", ⟨5, 2⟩⟩ .nestedMore).KeysUnique := by
    unfold KeysUnique
    decide +kernel
  have hagain : (single ⟨"a", ⟨5, 2⟩⟩ .nestedAgain).KeysUnique := by
    unfold KeysUnique
    decide +kernel
  obtain ⟨-, hunion, -⟩ := insert_unites hnested hmore
  obtain ⟨r, hr⟩ :=
    exists_of_isOk (x := nested.insert ⟨"a", ⟨5, 2⟩⟩ .nestedMore) (by decide +kernel)
  have hnames := (hunion r hr).1.names
  have herror : nested.insert ⟨"a", ⟨5, 2⟩⟩ .nestedAgain = .error ⟨.duplicateKey "x", ⟨7, 3⟩⟩ := rfl
  obtain ⟨before, x, after, hwalk, hclash, hbefore, hx⟩ :=
    (insert_unites hnested hagain).2.2 _ herror
  exact ⟨hnested, hmore, hagain, ⟨r, hr, (hunion r hr).2, (hunion r hr).1,
    (hnames ["a"]).trans (by decide +kernel), (hnames ["a", "c"]).trans (by decide +kernel)⟩,
    herror, before, x, after, hwalk, hclash, hbefore, hx.symm⟩

end AuditSettings.Toml
