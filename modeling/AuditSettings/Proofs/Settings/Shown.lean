/-
AuditSettings.Proofs.Settings.Shown — the JSON value that a node comes to.

A value of a tree has a JSON form, in which locations are forgotten and a
number or a date is nothing. `Node.Shows` says of a node that building met
no fault in it and that its value has a given form. The property is put
together the way nodes are: a scalar shows itself, an array what its items
show, and a table what its entries show, provided no name stands twice in
it. The last sections follow it through the pairs of a table, with names
of one part, and through pairs that share the first of two parts.
-/
import AuditSettings.Proofs.Toml.Newest
import AuditSettings.Report.Json
import AuditSettings.Toml.Parse
import Mathlib.Data.List.Forall2

namespace AuditSettings.Toml

open AuditSettings.Text

/-! ## The form of a value -/

namespace Value

mutual

/-- A value without its locations. -/
def json : Value → Json
  | scalar _ (.string s) => .string s
  | scalar _ (.boolean b) => .boolean b
  | scalar _ _ => .null
  | array _ items => .array (jsonItems items)
  | table _ entries => .object (jsonEntries entries)

/-- Some values without their locations. -/
def jsonItems : List Value → List Json
  | [] => []
  | v :: vs => v.json :: jsonItems vs

/-- Some entries without their locations. -/
def jsonEntries : List (KeyPart × Value) → List (String × Json)
  | [] => []
  | (k, v) :: entries => (k.name, v.json) :: jsonEntries entries

end

theorem jsonEntries_append (es fs : List (KeyPart × Value)) :
    jsonEntries (es ++ fs) = jsonEntries es ++ jsonEntries fs := by
  induction es with
  | nil => rfl
  | cons e es ih => simp [jsonEntries, ih]

theorem mem_names_jsonEntries {es : List (KeyPart × Value)} {name : String} :
    name ∈ (jsonEntries es).map Prod.fst ↔ ∃ e ∈ es, e.1.name = name := by
  induction es with
  | nil => simp [jsonEntries]
  | cons e es ih => simp [jsonEntries, ih, eq_comm]

end Value

/-- A name that stands once in a row of members stands in no part of the row
before it. -/
theorem name_not_mem {done ms : List (String × Json)} {m : String × Json}
    (h : ((done ++ m :: ms).map Prod.fst).Nodup) : m.1 ∉ done.map Prod.fst := by
  rw [List.map_append, List.nodup_append] at h
  exact fun hmem => h.2.2 m.1 hmem m.1 (by simp) rfl

/-- An entry of a name that is not there yet goes to the end. -/
theorem insertEntry_new {done : List (KeyPart × Value)} {k : KeyPart} (v : Value)
    (h : ∀ e ∈ done, e.1.name ≠ k.name) : insertEntry done k v = .ok (done ++ [(k, v)]) := by
  have hfind : done.find? (fun e => e.1.name == k.name) = none := by simpa using h
  have hany : done.any (fun e => e.1.name == k.name) = false := by simpa using h
  cases v with
  | scalar l s => simp [insertEntry, hany]
  | array l items => simp [insertEntry, hany]
  | table l entries => simp [insertEntry, hfind]

/-! ## Nodes -/

/-- A node without faults whose value has this form. -/
def Node.Shows (n : Node) (j : Json) : Prop :=
  n.faults = [] ∧ n.firstFault = none ∧ ∃ v, n.value = .ok v ∧ v.json = j

/-- Entries that show the members of an object. -/
def EntriesShow (es : List (KeyPart × Node)) (ms : List (String × Json)) : Prop :=
  List.Forall₂ (fun e m => e.1.name = m.1 ∧ e.2.Shows m.2) es ms

theorem EntriesShow.mem_names {es : List (KeyPart × Node)} {ms : List (String × Json)}
    (h : EntriesShow es ms) : es.map (fun e => e.1.name) = ms.map Prod.fst := by
  induction h with
  | nil => rfl
  | cons hm _ ih => simp [hm.1, ih]

theorem EntriesShow.lacks {es : List (KeyPart × Node)} {ms : List (String × Json)}
    (h : EntriesShow es ms) {name : String} (hn : name ∉ ms.map Prod.fst) :
    Contents.Lacks name es := by
  rw [← h.mem_names] at hn
  intro e he heq
  exact hn (List.mem_map.2 ⟨e, he, heq⟩)

theorem EntriesShow.firstFaultIn {es : List (KeyPart × Node)} {ms : List (String × Json)}
    (h : EntriesShow es ms) : Node.firstFaultIn es = none := by
  induction h with
  | nil => rfl
  | cons hm _ ih => simp [Node.firstFaultIn, hm.2.2.1, ih]

/-- Entries of different names come into the tree as they are. -/
theorem EntriesShow.addEntries {es : List (KeyPart × Node)} {ms : List (String × Json)}
    (h : EntriesShow es ms) : ∀ (done : List (KeyPart × Value)),
    ((Value.jsonEntries done ++ ms).map Prod.fst).Nodup →
    ∃ vs, Node.addEntries done es = .ok vs ∧
      Value.jsonEntries vs = Value.jsonEntries done ++ ms := by
  induction h with
  | nil => intro done _; exact ⟨done, rfl, by simp⟩
  | @cons e m es ms hm hes ih =>
    intro done hnd
    obtain ⟨k, n⟩ := e
    obtain ⟨name, j⟩ := m
    obtain ⟨hk, -, -, v, hv, hj⟩ := hm
    have hnew : ∀ e ∈ done, e.1.name ≠ k.name := fun e he heq =>
      name_not_mem hnd (Value.mem_names_jsonEntries.2 ⟨e, he, heq.trans hk⟩)
    have hdone : Value.jsonEntries (done ++ [(k, v)]) = Value.jsonEntries done ++ [(name, j)] := by
      rw [Value.jsonEntries_append]
      simp [Value.jsonEntries, hj, show k.name = name from hk]
    obtain ⟨vs, hvs, hjs⟩ := ih (done ++ [(k, v)]) (by simpa [hdone] using hnd)
    refine ⟨vs, ?_, by simp [hjs, hdone]⟩
    rw [Node.addEntries, hv]
    simp only [insertEntry_new v hnew]
    exact hvs

theorem shows_scalar_boolean (l : Location) (b : Bool) :
    (Node.scalar [] l (.boolean b)).Shows (.boolean b) := ⟨rfl, rfl, _, rfl, rfl⟩

theorem shows_scalar_string (l : Location) (s : String) :
    (Node.scalar [] l (.string s)).Shows (.string s) := ⟨rfl, rfl, _, rfl, rfl⟩

theorem values_of_shows {ns : List Node} {js : List Json} (h : List.Forall₂ Node.Shows ns js) :
    ns.flatMap Node.faults = [] ∧ ∃ vs, Node.values ns = .ok vs ∧ Value.jsonItems vs = js := by
  induction h with
  | nil => exact ⟨rfl, [], rfl, rfl⟩
  | cons hn _ ih =>
    obtain ⟨hf, -, v, hv, hj⟩ := hn
    obtain ⟨hfs, vs, hvs, hjs⟩ := ih
    refine ⟨by simp [hf, hfs], v :: vs, ?_, by simp [Value.jsonItems, hj, hjs]⟩
    simp [Node.values, hv, hvs, Except.map]

theorem shows_array {ns : List Node} {js : List Json} (h : List.Forall₂ Node.Shows ns js)
    (l : Location) (ofTables : Bool) : (Node.array [] l ofTables ns).Shows (.array js) := by
  obtain ⟨hf, vs, hvs, hjs⟩ := values_of_shows h
  refine ⟨rfl, by simp [Node.firstFault, hf], .array (Node.array [] l ofTables ns).extent vs, ?_, ?_⟩
  · rw [Node.value, hvs]
    rfl
  · simp [Value.json, hjs]

/-- What a table under construction shows. -/
def Contents.Shows (t : Contents) (ms : List (String × Json)) : Prop :=
  t.faults = [] ∧ EntriesShow t.entries ms

theorem Contents.Shows.node {t : Contents} {ms : List (String × Json)} (h : t.Shows ms)
    (hnd : (ms.map Prod.fst).Nodup) (l : Location) (kind : TableKind) :
    (t.node l kind).Shows (.object ms) := by
  obtain ⟨hf, hes⟩ := h
  obtain ⟨vs, hvs, hjs⟩ := hes.addEntries [] (by simpa [Value.jsonEntries] using hnd)
  refine ⟨hf, by simp [Contents.node, Node.firstFault, hf, hes.firstFaultIn],
    .table (t.node l kind).extent vs, ?_, ?_⟩
  · rw [Contents.node, Node.value, hvs]
    rfl
  · simp [Value.json, hjs, Value.jsonEntries]

/-- The tree of a document comes to what its contents show. -/
theorem Contents.Shows.table {d : Document} {ms : List (String × Json)} (h : d.contents.Shows ms)
    (hnd : (ms.map Prod.fst).Nodup) :
    ∃ t, d.table = .ok t ∧ Value.jsonEntries t.entries = ms := by
  obtain ⟨hf, hes⟩ := h
  obtain ⟨vs, hvs, hjs⟩ := hes.addEntries [] (by simpa [Value.jsonEntries] using hnd)
  have hfault : d.contents.firstFault = none := by
    simp [Contents.firstFault, hf, hes.firstFaultIn]
  refine ⟨⟨vs⟩, ?_, by simpa [Value.jsonEntries] using hjs⟩
  rw [Document.table, hfault]
  simp only [Contents.table, hvs, Except.map]

/-! ## Pairs -/

/-- The names of a key in order. -/
def Key.names (k : Key) : List String := k.parts.map KeyPart.name

/-- Pairs that show the members of an object, each under a key that is a
member's name behind some names that they share. -/
def PairsShow (path : List String) (ps : List (Key × Expr)) (ms : List (String × Json)) : Prop :=
  List.Forall₂ (fun p m => p.1.names = path ++ [m.1] ∧ p.2.node.Shows m.2) ps ms

theorem Key.names_eq_singleton {k : Key} {name : String} (h : k.names = [name]) :
    k.head.name = name ∧ k.tail = [] := by
  simpa [Key.names, Key.parts] using h

theorem Key.names_eq_pair {k : Key} {name field : String} (h : k.names = [name, field]) :
    k.head.name = name ∧ ∃ p, k.tail = [p] ∧ p.name = field := by
  obtain ⟨head, tail⟩ := k
  simp only [Key.names, Key.parts, List.map_cons, List.cons.injEq] at h
  obtain ⟨hhead, htail⟩ := h
  obtain ⟨p, hp, hfield⟩ := List.map_eq_singleton_iff.1 htail
  exact ⟨hhead, p, hp, hfield⟩

theorem Contents.Shows.push {t : Contents} {ms : List (String × Json)} (h : t.Shows ms)
    {k : KeyPart} {n : Node} {j : Json} (hn : n.Shows j) :
    (t.push k n).Shows (ms ++ [(k.name, j)]) :=
  ⟨h.1, List.rel_append h.2 (.cons ⟨rfl, hn⟩ .nil)⟩

theorem Contents.Shows.find?_eq_none {t : Contents} {ms : List (String × Json)} (h : t.Shows ms)
    {name : String} (hn : name ∉ ms.map Prod.fst) : t.find? name = none :=
  Contents.find?_eq_none_iff.2 (h.2.lacks hn)

theorem Contents.Shows.put {t : Contents} {ms : List (String × Json)} (h : t.Shows ms)
    {k : Key} {n : Node} {m : String × Json} (hk : k.names = [m.1]) (hn : n.Shows m.2)
    (hnew : m.1 ∉ ms.map Prod.fst) : (t.put n k.head k.tail).Shows (ms ++ [m]) := by
  obtain ⟨hname, htail⟩ := Key.names_eq_singleton hk
  rw [htail, Contents.put, Contents.pushNew, hname, h.find?_eq_none hnew]
  have := h.push (k := k.head) hn
  rwa [hname] at this

/-- Pairs of different names add what they show. -/
theorem PairsShow.contents {ps : List (Key × Expr)} {ms : List (String × Json)}
    (h : PairsShow [] ps ms) : ∀ {t : Contents} (done : List (String × Json)), t.Shows done →
    ((done ++ ms).map Prod.fst).Nodup → (Expr.contents ps t).Shows (done ++ ms) := by
  induction h with
  | nil => intro t done ht _; simpa [Expr.contents] using ht
  | @cons p m ps ms hm _ ih =>
    intro t done ht hnd
    have hnew : m.1 ∉ done.map Prod.fst := name_not_mem hnd
    rw [Expr.contents, List.append_cons]
    exact ih _ (ht.put hm.1 hm.2 hnew) (by simpa using hnd)

/-- A table whose last entry is a table that dots have implied. -/
def Contents.EndsIn (t : Contents) (done : List (String × Json)) (name : String)
    (inside : List (String × Json)) : Prop :=
  ∃ es k l sub, t = ⟨[], es ++ [(k, .table [] l .dotted sub)]⟩ ∧ k.name = name ∧
    EntriesShow es done ∧ EntriesShow sub inside

theorem Contents.EndsIn.shows {t : Contents} {done inside : List (String × Json)} {name : String}
    (h : t.EndsIn done name inside) (hnd : (inside.map Prod.fst).Nodup) :
    t.Shows (done ++ [(name, .object inside)]) := by
  obtain ⟨es, k, l, sub, rfl, rfl, hes, hsub⟩ := h
  have hnode : (Node.table [] l .dotted sub).Shows (.object inside) :=
    Contents.Shows.node (t := ⟨[], sub⟩) ⟨rfl, hsub⟩ hnd l .dotted
  exact ⟨rfl, List.rel_append hes (.cons ⟨rfl, hnode⟩ .nil)⟩

/-- The first dotted key of its name makes the table. -/
theorem Contents.Shows.put_dotted {t : Contents} {done : List (String × Json)} (h : t.Shows done)
    {name : String} (hname : name ∉ done.map Prod.fst) {k : Key} {n : Node} {m : String × Json}
    (hk : k.names = [name, m.1]) (hn : n.Shows m.2) :
    (t.put n k.head k.tail).EndsIn done name [m] := by
  obtain ⟨hhead, p, htail, hfield⟩ := Key.names_eq_pair hk
  obtain ⟨faults, es⟩ := t
  obtain ⟨rfl, hes⟩ := h
  have hfind : Contents.find? ⟨[], es⟩ k.head.name = none :=
    Contents.find?_eq_none_iff.2 (hhead ▸ hes.lacks hname)
  refine ⟨es, k.head, k.head.location, [(p, n)], ?_, hhead, hes, .cons ⟨hfield, hn⟩ .nil⟩
  rw [htail]
  simp only [Contents.put, hfind, Contents.pushNew]
  rfl

/-- Each further one finds it. -/
theorem Contents.EndsIn.put {t : Contents} {done inside : List (String × Json)} {name : String}
    (h : t.EndsIn done name inside) {k : Key} {n : Node} {m : String × Json}
    (hk : k.names = [name, m.1]) (hn : n.Shows m.2) (hnew : m.1 ∉ inside.map Prod.fst) :
    (t.put n k.head k.tail).EndsIn done name (inside ++ [m]) := by
  obtain ⟨hhead, p, htail, hfield⟩ := Key.names_eq_pair hk
  obtain ⟨es, k', l, sub, rfl, rfl, hes, hsub⟩ := h
  have hfind : Contents.find? ⟨[], es ++ [(k', .table [] l .dotted sub)]⟩ k.head.name =
      some (k', .table [] l .dotted sub) :=
    Contents.find?_eq_some_iff.2 ⟨hhead.symm, es, [], rfl, by simp [Contents.Lacks]⟩
  have hsubfind : Contents.find? ⟨[], sub⟩ p.name = none :=
    Contents.find?_eq_none_iff.2 (hfield ▸ hsub.lacks hnew)
  refine ⟨es, k', l, sub ++ [(p, n)], ?_, rfl, hes, List.rel_append hsub (.cons ⟨hfield, hn⟩ .nil)⟩
  rw [htail]
  simp only [Contents.put, hfind, TableKind.isImplied, if_true, Contents.pushNew, hsubfind]
  rw [Contents.setNewest_eq rfl hhead.symm (by simp [Contents.Lacks])]
  rfl

theorem PairsShow.endsIn {name : String} {ps : List (Key × Expr)} {ms : List (String × Json)}
    (h : PairsShow [name] ps ms) : ∀ {t : Contents} {done inside : List (String × Json)},
    t.EndsIn done name inside → ((inside ++ ms).map Prod.fst).Nodup →
    (Expr.contents ps t).EndsIn done name (inside ++ ms) := by
  induction h with
  | nil => intro t done inside ht _; simpa [Expr.contents] using ht
  | @cons p m ps ms hm _ ih =>
    intro t done inside ht hnd
    have hnew : m.1 ∉ inside.map Prod.fst := name_not_mem hnd
    rw [Expr.contents, List.append_cons]
    exact ih (ht.put hm.1 hm.2 hnew) (by simpa using hnd)

/-- Pairs with one name before the dot add an object of that name. -/
theorem PairsShow.contents_dotted {name : String} {ps : List (Key × Expr)}
    {ms : List (String × Json)} (h : PairsShow [name] ps ms) (hne : ms ≠ []) (hnd : (ms.map Prod.fst).Nodup) {t : Contents}
    {done : List (String × Json)} (ht : t.Shows done) (hname : name ∉ done.map Prod.fst) :
    (Expr.contents ps t).Shows (done ++ [(name, .object ms)]) := by
  cases h with
  | nil => exact absurd rfl hne
  | @cons p m ps ms hm hms =>
    have hfirst := ht.put_dotted hname hm.1 hm.2
    exact (PairsShow.endsIn hms hfirst hnd).shows hnd

end AuditSettings.Toml
