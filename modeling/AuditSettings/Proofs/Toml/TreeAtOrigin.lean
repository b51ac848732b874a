/-
AuditSettings.Proofs.Toml.TreeAtOrigin — the tree of a document, apart from where
everything stands.

Building a table looks keys up by their names and passes their locations on
without ever asking for them. So a document at the origin builds the same
table at the origin (`contents_atOrigin`), which is at fault when that table
is, and makes the same tree at the origin or none just as well
(`table_atOrigin`): the locations of a tree are the only thing in it that
depends on where its text stands.
-/
import AuditSettings.Proofs.Outcome
import AuditSettings.Proofs.Toml.AtOrigin
import AuditSettings.Proofs.Toml.Newest
import AuditSettings.Toml.Parse

namespace AuditSettings.Toml

open AuditSettings.Text

/-! ## At the origin -/

/-- The same clash of two keys, both written at the origin. -/
def Clash.atOrigin (c : Clash) : Clash := ⟨c.kind, c.key.atOrigin, c.old.atOrigin⟩

mutual

/-- The same node, of a text at the origin. -/
def Node.atOrigin : Node → Node
  | .scalar faults _ v => .scalar (faults.map Clash.atOrigin) .origin v
  | .array faults _ ofTables items =>
    .array (faults.map Clash.atOrigin) .origin ofTables (Node.itemsAtOrigin items)
  | .table faults _ kind entries =>
    .table (faults.map Clash.atOrigin) .origin kind (Node.entriesAtOrigin entries)

/-- The same items, of a text at the origin. -/
def Node.itemsAtOrigin : List Node → List Node
  | [] => []
  | n :: ns => n.atOrigin :: Node.itemsAtOrigin ns

/-- The same entries, of a text at the origin. -/
def Node.entriesAtOrigin : List (KeyPart × Node) → List (KeyPart × Node)
  | [] => []
  | (k, n) :: es => (k.atOrigin, n.atOrigin) :: Node.entriesAtOrigin es

end

/-- The same contents, of a text at the origin. -/
def Contents.atOrigin (t : Contents) : Contents :=
  ⟨t.faults.map Clash.atOrigin, Node.entriesAtOrigin t.entries⟩

mutual

/-- The same value, of a text at the origin. -/
def Value.atOrigin : Value → Value
  | .scalar _ v => .scalar .origin v
  | .array _ items => .array .origin (Value.itemsAtOrigin items)
  | .table _ entries => .table .origin (Value.entriesAtOrigin entries)

/-- The same items, of a text at the origin. -/
def Value.itemsAtOrigin : List Value → List Value
  | [] => []
  | v :: vs => v.atOrigin :: Value.itemsAtOrigin vs

/-- The same entries, of a text at the origin. -/
def Value.entriesAtOrigin : List (KeyPart × Value) → List (KeyPart × Value)
  | [] => []
  | (k, v) :: es => (k.atOrigin, v.atOrigin) :: Value.entriesAtOrigin es

end

/-- The same tree, of a text at the origin. -/
def Table.atOrigin (t : Table) : Table := ⟨Value.entriesAtOrigin t.entries⟩

theorem Node.itemsAtOrigin_eq (ns : List Node) : itemsAtOrigin ns = ns.map atOrigin := by
  induction ns with
  | nil => rfl
  | cons n ns ih => rw [itemsAtOrigin, ih, List.map_cons]

theorem Node.entriesAtOrigin_eq (es : List (KeyPart × Node)) :
    entriesAtOrigin es = es.map fun e => (e.1.atOrigin, e.2.atOrigin) := by
  induction es with
  | nil => rfl
  | cons e es ih =>
    obtain ⟨k, n⟩ := e
    rw [entriesAtOrigin, ih, List.map_cons]

theorem Value.entriesAtOrigin_eq (es : List (KeyPart × Value)) :
    entriesAtOrigin es = es.map fun e => (e.1.atOrigin, e.2.atOrigin) := by
  induction es with
  | nil => rfl
  | cons e es ih =>
    obtain ⟨k, v⟩ := e
    rw [entriesAtOrigin, ih, List.map_cons]

/-! ## Changes of a table -/

namespace Contents

@[simp] theorem atOrigin_node (t : Contents) (l : Location) (kind : TableKind) :
    (t.node l kind).atOrigin = t.atOrigin.node .origin kind := rfl

@[simp] theorem atOrigin_empty : empty.atOrigin = empty := rfl

@[simp] theorem atOrigin_push (t : Contents) (k : KeyPart) (n : Node) :
    (t.push k n).atOrigin = t.atOrigin.push k.atOrigin n.atOrigin := by
  simp [atOrigin, push, Node.entriesAtOrigin_eq]

@[simp] theorem atOrigin_addFault (t : Contents) (c : Clash) :
    (t.addFault c).atOrigin = t.atOrigin.addFault c.atOrigin := by
  simp [atOrigin, addFault]

theorem lacks_atOrigin {name : String} {es : List (KeyPart × Node)} (h : Lacks name es) :
    Lacks name (Node.entriesAtOrigin es) := by
  intro e he
  rw [Node.entriesAtOrigin_eq] at he
  obtain ⟨e', he', rfl⟩ := List.mem_map.1 he
  exact h e' he'

theorem entriesAtOrigin_split {t : Contents} {k : KeyPart} {n : Node}
    {older fresh : List (KeyPart × Node)} (h : t.entries = older ++ (k, n) :: fresh) :
    t.atOrigin.entries = Node.entriesAtOrigin older ++
      (k.atOrigin, n.atOrigin) :: Node.entriesAtOrigin fresh := by
  simp [atOrigin, h, Node.entriesAtOrigin_eq]

/-- A name is looked up in the same way. -/
theorem find?_atOrigin (t : Contents) (name : String) :
    t.atOrigin.find? name = (t.find? name).map fun e => (e.1.atOrigin, e.2.atOrigin) := by
  cases h : t.find? name with
  | none => exact find?_eq_none_iff.2 (lacks_atOrigin (find?_eq_none_iff.1 h))
  | some e =>
    obtain ⟨hk, older, fresh, ht, hf⟩ := find?_eq_some_iff.1 h
    exact find?_eq_some_iff.2 ⟨hk, _, _, entriesAtOrigin_split ht, lacks_atOrigin hf⟩

theorem atOrigin_setNewest {t : Contents} {name : String} {k : KeyPart} {n : Node}
    (h : t.find? name = some (k, n)) (m : Node) :
    (t.setNewest name m).atOrigin = t.atOrigin.setNewest name m.atOrigin := by
  obtain ⟨hk, older, fresh, ht, hf⟩ := find?_eq_some_iff.1 h
  have hk' : k.atOrigin.name = name := hk
  rw [setNewest_eq ht hk hf, setNewest_eq (entriesAtOrigin_split ht) hk' (lacks_atOrigin hf)]
  simp [atOrigin, Node.entriesAtOrigin_eq]

/-- A pair is put in the same way. -/
theorem atOrigin_put (n : Node) : ∀ (k : KeyPart) (ks : List KeyPart) (t : Contents),
    (put n k ks t).atOrigin = put n.atOrigin k.atOrigin (ks.map KeyPart.atOrigin) t.atOrigin
  | k, [], t => by
      have hfind : t.atOrigin.find? k.atOrigin.name = _ := find?_atOrigin t k.name
      rw [put, pushNew, List.map_nil, put, pushNew, hfind]
      cases t.find? k.name with
      | none => simp
      | some e => simp [Clash.atOrigin]
  | k, k' :: ks, t => by
      have hfind : t.atOrigin.find? k.atOrigin.name = _ := find?_atOrigin t k.name
      have hinside := atOrigin_put n k' ks
      have hclash (old : KeyPart) : ((t.addFault ⟨.conflictingKeys, k, old⟩).push k
          ((put n k' ks empty).node k.location .dotted)).atOrigin =
            (t.atOrigin.addFault ⟨.conflictingKeys, k.atOrigin, old.atOrigin⟩).push k.atOrigin
              ((put n.atOrigin k'.atOrigin (ks.map KeyPart.atOrigin) empty).node .origin .dotted) := by
        simp [hinside, Clash.atOrigin]
      rw [put, List.map_cons, put, hfind]
      cases hold : t.find? k.name with
      | none => simp [hinside]; rfl
      | some e =>
        obtain ⟨old, m⟩ := e
        cases m with
        | scalar faults l v => exact hclash old
        | array faults l ofTables items => exact hclash old
        | table faults l kind entries =>
          by_cases himplied : kind.isImplied = true
          · simp only [Option.map_some, Node.atOrigin, himplied, if_true]
            rw [atOrigin_setNewest hold, atOrigin_node, hinside]
            rfl
          · simp only [Option.map_some, Node.atOrigin, himplied]
            exact hclash old

end Contents

/-! ## Written values -/

mutual

theorem Expr.node_atOrigin : ∀ e : Expr, e.atOrigin.node = e.node.atOrigin
  | .scalar l v => rfl
  | .array l items => by
      simp only [Expr.atOrigin, Expr.node, Node.atOrigin, Expr.nodes_atOrigin items, List.map_nil]
  | .inlineTable l pairs => by
      simp only [Expr.atOrigin, Expr.node, Contents.atOrigin_node, Expr.contents_atOrigin pairs,
        Contents.atOrigin_empty]

theorem Expr.nodes_atOrigin : ∀ es : List Expr,
    Expr.nodes (Expr.itemsAtOrigin es) = Node.itemsAtOrigin (Expr.nodes es)
  | [] => rfl
  | e :: es => by
      simp only [Expr.itemsAtOrigin, Expr.nodes, Node.itemsAtOrigin, Expr.node_atOrigin e,
        Expr.nodes_atOrigin es]

/-- Pairs are added in the same way. -/
theorem Expr.contents_atOrigin : ∀ (ps : List (Key × Expr)) (t : Contents),
    (Expr.contents ps t).atOrigin = Expr.contents (Expr.pairsAtOrigin ps) t.atOrigin
  | [], t => rfl
  | (k, e) :: ps, t => by
      rw [Expr.contents, Expr.contents_atOrigin ps, Contents.atOrigin_put, ← Expr.node_atOrigin e]
      rfl

end

/-! ## Headers -/

namespace Contents

/-- Two changes of a table are the same one, apart from where things stand. -/
def SameAtOrigin (f f' : Contents → Contents) : Prop := ∀ t, (f t).atOrigin = f' t.atOrigin

variable {f f' : Contents → Contents}

theorem atOrigin_fillLast (h : SameAtOrigin f f') (l : Location) (items : List Node) :
    Node.itemsAtOrigin (fillLast l f items) =
      fillLast .origin f' (Node.itemsAtOrigin items) := by
  have hnew : Node.itemsAtOrigin (items ++ [(f empty).node l .passed]) =
      Node.itemsAtOrigin items ++ [(f' empty).node .origin .passed] := by
    simp [Node.itemsAtOrigin_eq, h empty]
  have hlast : (Node.itemsAtOrigin items).getLast? = items.getLast?.map Node.atOrigin := by
    rw [Node.itemsAtOrigin_eq, List.getLast?_map]
  unfold fillLast
  rw [hlast]
  cases items.getLast? with
  | none => exact hnew
  | some n =>
    cases n with
    | scalar faults l v => exact hnew
    | array faults l ofTables items => exact hnew
    | table faults l' kind entries =>
      simp [Node.itemsAtOrigin_eq, Node.atOrigin, h ⟨faults, entries⟩]
      rfl

/-- A header is followed in the same way. -/
theorem atOrigin_follow {arrive arrive' : KeyPart → Contents → Contents}
    (h : ∀ k, SameAtOrigin (arrive k) (arrive' k.atOrigin)) : ∀ (k : KeyPart) (ks : List KeyPart),
    SameAtOrigin (follow arrive k ks) (follow arrive' k.atOrigin (ks.map KeyPart.atOrigin))
  | k, [], t => h k t
  | k, k' :: ks, t => by
      have hfind : t.atOrigin.find? k.atOrigin.name = _ := find?_atOrigin t k.name
      have hinside := atOrigin_follow h k' ks
      rw [follow, List.map_cons, follow, hfind]
      cases hold : t.find? k.name with
      | none =>
        rw [atOrigin_push, atOrigin_node, hinside empty]
        rfl
      | some e =>
        obtain ⟨old, m⟩ := e
        cases m with
        | scalar faults l v =>
          rw [atOrigin_push, atOrigin_node, hinside empty, atOrigin_addFault]
          rfl
        | array faults l ofTables items =>
          simp only [Option.map_some, Node.atOrigin]
          rw [atOrigin_setNewest hold, Node.atOrigin, atOrigin_fillLast hinside]
          cases ofTables <;> simp [Clash.atOrigin] <;> rfl
        | table faults l kind entries =>
          simp only [Option.map_some, Node.atOrigin]
          rw [atOrigin_setNewest hold, atOrigin_node, hinside]
          by_cases hkind : kind = .inlined <;> simp [hkind, Clash.atOrigin, atOrigin] <;> rfl

theorem atOrigin_openTable (h : SameAtOrigin f f') (l : Location) (k : KeyPart) :
    SameAtOrigin (openTable l f k) (openTable .origin f' k.atOrigin) := by
  intro t
  have hfind : t.atOrigin.find? k.atOrigin.name = _ := find?_atOrigin t k.name
  rw [openTable, openTable, hfind]
  cases hold : t.find? k.name with
  | none =>
    rw [atOrigin_push, atOrigin_node, h empty]
    rfl
  | some e =>
    obtain ⟨old, m⟩ := e
    cases m with
    | scalar faults l v =>
      simp only [Option.map_some, Node.atOrigin]
      rw [h, atOrigin_addFault]
      rfl
    | array faults l ofTables items =>
      simp only [Option.map_some, Node.atOrigin]
      rw [h, atOrigin_addFault]
      rfl
    | table faults l kind entries =>
      simp only [Option.map_some, Node.atOrigin]
      rw [atOrigin_setNewest hold, atOrigin_node, h]
      by_cases hkind : kind = .passed <;> simp [hkind, Clash.atOrigin, atOrigin] <;> rfl

theorem atOrigin_openArray (h : SameAtOrigin f f') (l : Location) (k : KeyPart) :
    SameAtOrigin (openArray l f k) (openArray .origin f' k.atOrigin) := by
  intro t
  have hfind : t.atOrigin.find? k.atOrigin.name = _ := find?_atOrigin t k.name
  have hfault (c : Clash) (n : Node) : (n.addFault c).atOrigin = n.atOrigin.addFault c.atOrigin := by
    cases n <;> simp [Node.addFault, Node.atOrigin]
  rw [openArray, openArray, hfind]
  cases hold : t.find? k.name with
  | none =>
    rw [atOrigin_push]
    simp only [Option.map_none, Node.atOrigin, Node.itemsAtOrigin, atOrigin_node, h empty,
      List.map_nil]
    rfl
  | some e =>
    obtain ⟨old, m⟩ := e
    cases m with
    | scalar faults l v =>
      simp only [Option.map_some, Node.atOrigin]
      rw [h, atOrigin_setNewest hold, hfault]
      rfl
    | table faults l kind entries =>
      simp only [Option.map_some, Node.atOrigin]
      rw [h, atOrigin_setNewest hold, hfault]
      rfl
    | array faults l ofTables items =>
      simp only [Option.map_some, Node.atOrigin]
      rw [atOrigin_setNewest hold, Node.atOrigin]
      cases ofTables <;>
        simp [Clash.atOrigin, Node.itemsAtOrigin_eq, h empty] <;> rfl

/-- A section is added in the same way. -/
theorem addSection_atOrigin (t : Contents) (s : Section) :
    (t.addSection s).atOrigin = t.atOrigin.addSection s.atOrigin := by
  obtain ⟨heading, pairs⟩ := s
  have hfill : SameAtOrigin (Expr.contents pairs) (Expr.contents (Expr.pairsAtOrigin pairs)) :=
    Expr.contents_atOrigin pairs
  cases heading with
  | table l key =>
    exact atOrigin_follow (fun k => atOrigin_openTable hfill l k) key.head key.tail t
  | element l key =>
    exact atOrigin_follow (fun k => atOrigin_openArray hfill l k) key.head key.tail t

end Contents

/-- A document at the origin builds the same table. -/
theorem Document.contents_atOrigin (d : Document) : d.atOrigin.contents = d.contents.atOrigin := by
  obtain ⟨opening, sections⟩ := d
  have hsections (t : Contents) :
      (sections.map Section.atOrigin).foldl Contents.addSection t.atOrigin =
        (sections.foldl Contents.addSection t).atOrigin := by
    induction sections generalizing t with
    | nil => rfl
    | cons s sections ih =>
      rw [List.map_cons, List.foldl_cons, List.foldl_cons, ← t.addSection_atOrigin, ih]
  rw [contents, contents, ← hsections, Expr.contents_atOrigin]
  rfl

/-! ## Faults -/

namespace Node

theorem faults_atOrigin (n : Node) : n.atOrigin.faults = n.faults.map Clash.atOrigin := by
  cases n <;> rfl

mutual

/-- A node at the origin has the same first fault. -/
theorem firstFault_atOrigin : ∀ n : Node, n.atOrigin.firstFault = n.firstFault.map Clash.atOrigin
  | .scalar faults l v => List.head?_map
  | .array faults l ofTables items => by
      have hitems : (itemsAtOrigin items).flatMap Node.faults =
          (items.flatMap Node.faults).map Clash.atOrigin := by
        simp [itemsAtOrigin_eq, List.flatMap_map, List.map_flatMap, faults_atOrigin]
      rw [Node.atOrigin, firstFault, firstFault, hitems, ← List.map_append, List.head?_map]
  | .table faults l kind entries => by
      rw [Node.atOrigin, firstFault, firstFault, firstFaultIn_atOrigin entries, List.head?_map]
      cases faults <;> rfl

theorem firstFaultIn_atOrigin : ∀ es : List (KeyPart × Node),
    firstFaultIn (entriesAtOrigin es) = (firstFaultIn es).map Clash.atOrigin
  | [] => rfl
  | (k, n) :: es => by
      rw [entriesAtOrigin, firstFaultIn, firstFaultIn, firstFault_atOrigin n,
        firstFaultIn_atOrigin es]
      cases n.firstFault <;> rfl

end

end Node

theorem Contents.firstFault_atOrigin (t : Contents) :
    t.atOrigin.firstFault = t.firstFault.map Clash.atOrigin := by
  rw [firstFault, firstFault, atOrigin, Node.firstFaultIn_atOrigin, List.head?_map]
  cases t.faults <;> rfl

/-! ## Trees -/

theorem find?_entriesAtOrigin (es : List (KeyPart × Value)) (name : String) :
    (Value.entriesAtOrigin es).find? (fun e => e.1.name == name) =
      (es.find? fun e => e.1.name == name).map fun e => (e.1.atOrigin, e.2.atOrigin) := by
  rw [Value.entriesAtOrigin_eq, List.find?_map]
  rfl

theorem any_entriesAtOrigin (es : List (KeyPart × Value)) (name : String) :
    (Value.entriesAtOrigin es).any (fun e => e.1.name == name) =
      es.any fun e => e.1.name == name := by
  rw [Value.entriesAtOrigin_eq, List.any_map]
  rfl

theorem entriesAtOrigin_replaceFirst (key : String) (v : Value) (es : List (KeyPart × Value)) :
    Value.entriesAtOrigin (replaceFirst key v es) =
      replaceFirst key v.atOrigin (Value.entriesAtOrigin es) := by
  induction es with
  | nil => rfl
  | cons e es ih =>
    obtain ⟨k, old⟩ := e
    rw [replaceFirst, Value.entriesAtOrigin, replaceFirst, KeyPart.atOrigin]
    simp only
    split
    · rfl
    · rw [Value.entriesAtOrigin, ih]
      rfl

mutual

/-- An entry is added in the same way. -/
theorem insertEntry_atOrigin : ∀ (v : Value) (es : List (KeyPart × Value)) (k : KeyPart),
    (insertEntry (Value.entriesAtOrigin es) k.atOrigin v.atOrigin).toOption =
      (insertEntry es k v).toOption.map Value.entriesAtOrigin
  | .scalar l s, es, k => by
      have hany : (Value.entriesAtOrigin es).any _ = _ := any_entriesAtOrigin es k.name
      rw [Value.atOrigin, insertEntry, insertEntry]
      simp only [KeyPart.atOrigin, hany]
      split
      · rfl
      · simp [Except.toOption, Value.entriesAtOrigin_eq, KeyPart.atOrigin, Value.atOrigin]
  | .array l items, es, k => by
      have hany : (Value.entriesAtOrigin es).any _ = _ := any_entriesAtOrigin es k.name
      rw [Value.atOrigin, insertEntry, insertEntry]
      simp only [KeyPart.atOrigin, hany]
      split
      · rfl
      · simp [Except.toOption, Value.entriesAtOrigin_eq, KeyPart.atOrigin, Value.atOrigin]
  | .table l incoming, es, k => by
      have hfind : (Value.entriesAtOrigin es).find? _ = _ := find?_entriesAtOrigin es k.name
      rw [Value.atOrigin, insertEntry, insertEntry]
      simp only [KeyPart.atOrigin, hfind]
      cases es.find? fun e => e.1.name == k.name with
      | none => simp [Except.toOption, Value.entriesAtOrigin_eq, KeyPart.atOrigin, Value.atOrigin]
      | some e =>
        obtain ⟨k₀, v₀⟩ := e
        cases v₀ with
        | scalar l' s => rfl
        | array l' items => rfl
        | table l' existing =>
          simp only [Option.map_some, Value.atOrigin, toOption_map, insertEntries_atOrigin incoming,
            Option.map_map]
          refine congrFun (congrArg Option.map (funext fun merged => ?_)) _
          simp only [Function.comp_apply, entriesAtOrigin_replaceFirst, Value.atOrigin]

theorem insertEntries_atOrigin : ∀ (incoming es : List (KeyPart × Value)),
    (insertEntries (Value.entriesAtOrigin es) (Value.entriesAtOrigin incoming)).toOption =
      (insertEntries es incoming).toOption.map Value.entriesAtOrigin
  | [], es => rfl
  | (k, v) :: rest, es => by
      have hfirst := insertEntry_atOrigin v es k
      rw [Value.entriesAtOrigin, insertEntries, insertEntries]
      rcases cases_of_toOption_eq hfirst with ⟨e, e', hv, hv'⟩ | ⟨r, hv, hv'⟩
      · rw [hv, hv']
        rfl
      · rw [hv, hv']
        exact insertEntries_atOrigin rest r

end

/-- What is added to one of two lists of entries that are the same at the
origin can be added to the other. -/
theorem insertEntry_congr {es es' : List (KeyPart × Value)} {k k' : KeyPart} {v v' : Value}
    (hes : Value.entriesAtOrigin es = Value.entriesAtOrigin es') (hk : k.atOrigin = k'.atOrigin)
    (hv : v.atOrigin = v'.atOrigin) :
    (insertEntry es k v).toOption.map Value.entriesAtOrigin =
      (insertEntry es' k' v').toOption.map Value.entriesAtOrigin := by
  rw [← insertEntry_atOrigin, ← insertEntry_atOrigin, hes, hk, hv]

namespace Node

mutual

/-- A node at the origin has the same value at the origin. -/
theorem value_atOrigin : ∀ n : Node,
    n.atOrigin.value.toOption.map Value.atOrigin = n.value.toOption.map Value.atOrigin
  | .scalar faults l v => rfl
  | .array faults l ofTables items => by
      have hitems := values_atOrigin items
      rw [Node.atOrigin, Node.value, Node.value, toOption_map, toOption_map]
      rcases cases_of_toOption_map_eq hitems with ⟨e, e', hv, hv'⟩ | ⟨vs, vs', hv, hv', heq⟩
      · rw [hv, hv']
        rfl
      · rw [hv, hv']
        exact congrArg (fun vs => some (Value.array .origin vs)) heq
  | .table faults l kind entries => by
      have hentries := addEntries_atOrigin entries [] [] rfl
      rw [Node.atOrigin, Node.value, Node.value, toOption_map, toOption_map]
      rcases cases_of_toOption_map_eq hentries with ⟨e, e', hv, hv'⟩ | ⟨es, es', hv, hv', heq⟩
      · rw [hv, hv']
        rfl
      · rw [hv, hv']
        exact congrArg (fun es => some (Value.table .origin es)) heq

theorem values_atOrigin : ∀ ns : List Node,
    (values (itemsAtOrigin ns)).toOption.map Value.itemsAtOrigin =
      (values ns).toOption.map Value.itemsAtOrigin
  | [] => rfl
  | n :: ns => by
      have hns := values_atOrigin ns
      rw [itemsAtOrigin, values, values]
      rcases cases_of_toOption_map_eq (value_atOrigin n) with ⟨e, e', hv, hv'⟩ | ⟨v, v', hv, hv', heq⟩
      · rw [hv, hv']
        rfl
      · rw [hv, hv']
        simp only [toOption_map]
        rcases cases_of_toOption_map_eq hns with ⟨e, e', hvs, hvs'⟩ | ⟨vs, vs', hvs, hvs', heqs⟩
        · rw [hvs, hvs']
          rfl
        · rw [hvs, hvs']
          show some (v.atOrigin :: Value.itemsAtOrigin vs) = some (v'.atOrigin :: _)
          rw [heq, heqs]

/-- Entries are added in the same way. -/
theorem addEntries_atOrigin : ∀ (es : List (KeyPart × Node)) (done done' : List (KeyPart × Value)),
    Value.entriesAtOrigin done = Value.entriesAtOrigin done' →
    (addEntries done (entriesAtOrigin es)).toOption.map Value.entriesAtOrigin =
      (addEntries done' es).toOption.map Value.entriesAtOrigin
  | [], done, done', h => congrArg some h
  | (k, n) :: es, done, done', h => by
      rw [entriesAtOrigin, addEntries, addEntries]
      rcases cases_of_toOption_map_eq (value_atOrigin n) with ⟨e, e', hv, hv'⟩ | ⟨v, v', hv, hv', heq⟩
      · rw [hv, hv']
        rfl
      · rw [hv, hv']
        have hinsert := insertEntry_congr h k.atOrigin_atOrigin heq
        simp only
        rcases cases_of_toOption_map_eq hinsert with ⟨e, e', hr, hr'⟩ | ⟨r, r', hr, hr', heqr⟩
        · rw [hr, hr']
          rfl
        · rw [hr, hr']
          exact addEntries_atOrigin es r r' heqr

end

end Node

/-- A table at the origin makes the same tree at the origin. -/
theorem Contents.table_atOrigin (t : Contents) :
    t.atOrigin.table.toOption.map Table.atOrigin = t.table.toOption.map Table.atOrigin := by
  have hentries := Node.addEntries_atOrigin t.entries [] [] rfl
  rw [table, table, toOption_map, toOption_map, Contents.atOrigin]
  rcases cases_of_toOption_map_eq hentries with ⟨e, e', hv, hv'⟩ | ⟨es, es', hv, hv', heq⟩
  · rw [hv, hv']
    rfl
  · rw [hv, hv']
    exact congrArg (fun es => some (Table.mk es)) heq

/-- A document at the origin makes the same tree at the origin. -/
theorem Document.table_atOrigin (d : Document) :
    d.atOrigin.table.toOption.map Table.atOrigin = d.table.toOption.map Table.atOrigin := by
  rw [table, table, contents_atOrigin, Contents.firstFault_atOrigin]
  cases d.contents.firstFault with
  | none => exact d.contents.table_atOrigin
  | some c => rfl

end AuditSettings.Toml
