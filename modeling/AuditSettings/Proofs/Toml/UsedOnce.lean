/-
AuditSettings.Proofs.Toml.UsedOnce — no key part names two entries.

A name that is written in a text becomes the key part of one entry at the
most, however headers and dots lead through the tables that it is read for
and however tables come together afterwards. So different entries of an
accepted text, wherever they are in its tree, have their keys at different
locations (`parse_key_locations`).

The reason is counted: every step of building takes the names that it reads
once each, or not at all (`Sparing`), and putting tables together only ever
drops the newer of two key parts.
-/
import AuditSettings.Proofs.Toml.Parsing
import AuditSettings.Proofs.Toml.Union

namespace AuditSettings.Toml

open AuditSettings.Text

/-- How often a key part is among some keys. -/
def uses (p : KeyPart) (xs : List (Address × KeyPart)) : Nat := (xs.map Prod.snd).count p

@[simp] theorem uses_nil (p : KeyPart) : uses p [] = 0 := rfl

@[simp] theorem uses_cons (p : KeyPart) (x : Address × KeyPart) (xs : List (Address × KeyPart)) :
    uses p (x :: xs) = [x.2].count p + uses p xs := by
  simp [uses, List.count_cons, Nat.add_comm]

@[simp] theorem uses_append (p : KeyPart) (xs ys : List (Address × KeyPart)) :
    uses p (xs ++ ys) = uses p xs + uses p ys := by
  simp [uses]

@[simp] theorem map_snd_under {α : Type} (a : Address) (xs : List (Address × α)) :
    (under a xs).map Prod.snd = xs.map Prod.snd := by
  simp [under, Function.comp_def]

@[simp] theorem uses_under (p : KeyPart) (a : Address) (xs : List (Address × KeyPart)) :
    uses p (under a xs) = uses p xs := by
  simp [uses]

@[simp] theorem uses_itemKeySites (p : KeyPart) (i : Nat) (ns : List Node) :
    uses p (Node.itemKeySites i ns) = uses p (Node.itemKeySites 0 ns) := by
  induction ns generalizing i with
  | nil => rfl
  | cons n ns ih => simp [Node.itemKeySites, ih (i + 1), ih 1]

namespace Contents

variable {t : Contents} {new : List KeyPart} {name : String} {k old : KeyPart} {n m : Node}
  {f : Contents → Contents} {arrive : KeyPart → Contents → Contents}

/-- A step that uses no more than the names that it reads, each once. -/
def Sparing (new : List KeyPart) (f : Contents → Contents) : Prop :=
  ∀ (p : KeyPart) (t : Contents), uses p (f t).keySites ≤ uses p t.keySites + new.count p

@[simp] theorem uses_push (p : KeyPart) (t : Contents) (k : KeyPart) (n : Node) :
    uses p (t.push k n).keySites = uses p t.keySites + ([k].count p + uses p n.keySites) := by
  simp [keySites, push, Node.entryKeySites_append, Node.entryKeySites]

@[simp] theorem keySites_addFault (t : Contents) (c : Clash) :
    (t.addFault c).keySites = t.keySites := rfl

@[simp] theorem keySites_node (t : Contents) (l : Location) (kind : TableKind) :
    (t.node l kind).keySites = t.keySites := rfl

@[simp] theorem keySites_empty : empty.keySites = [] := rfl

/-- A node that is replaced uses what it gains. -/
theorem uses_setNewest {p : KeyPart} {c : Nat} (hfind : t.find? name = some (old, n))
    (hm : uses p m.keySites ≤ uses p n.keySites + c) :
    uses p (t.setNewest name m).keySites ≤ uses p t.keySites + c := by
  obtain ⟨hname, older, fresh, ht, hfresh⟩ := find?_eq_some_iff.1 hfind
  rw [setNewest_eq ht hname hfresh]
  simp only [keySites, ht, Node.entryKeySites_append, Node.entryKeySites, uses_append, uses_cons,
    uses_under]
  omega

/-- A step in a new table uses what it reads. -/
theorem Sparing.empty (hf : Sparing new f) (p : KeyPart) :
    uses p (f .empty).keySites ≤ new.count p := by
  simpa using hf p .empty

theorem sparing_put {ns : List KeyPart} (hn : ∀ p, uses p n.keySites ≤ ns.count p) :
    ∀ (k : KeyPart) (ks : List KeyPart), Sparing (k :: ks ++ ns) (put n k ks)
  | k, [] => by
      intro p t
      have hnode := hn p
      rw [put, pushNew]
      split <;> simp only [uses_push, keySites_addFault, List.cons_append, List.nil_append,
        List.count_cons, List.count_nil] <;> omega
  | k, k' :: ks => by
      intro p t
      have hinside := sparing_put hn k' ks
      have hpush := hinside.empty p
      have hcount : (k :: k' :: ks ++ ns).count p = [k].count p + (k' :: ks ++ ns).count p := by
        rw [← List.count_append]
        rfl
      rw [put, hcount]
      split
      · next old faults l kind entries hfind =>
        split
        · have hset := uses_setNewest hfind
            (m := (put n k' ks ⟨faults, entries⟩).node l kind) (hinside p ⟨faults, entries⟩)
          omega
        · simp only [uses_push, keySites_addFault, keySites_node]
          omega
      · simp only [uses_push, keySites_addFault, keySites_node]
        omega
      · simp only [uses_push, keySites_node]
        omega

theorem Sparing.comp {new' : List KeyPart} {g : Contents → Contents} (hf : Sparing new f)
    (hg : Sparing new' g) : Sparing (new ++ new') fun t => g (f t) := by
  intro p t
  have h₁ := hf p t
  have h₂ := hg p (f t)
  rw [List.count_append]
  dsimp only
  omega

end Contents

/-! ## Written values -/

mutual

/-- The node of a value uses the names that are written in the value. -/
theorem Expr.uses_node : ∀ (e : Expr) (p : KeyPart),
    uses p e.node.keySites ≤ (namesIn e.marks).count p
  | .scalar _ _, p => by simp [Expr.node, Node.keySites]
  | .array _ items, p => by
      simpa [Expr.node, Node.keySites, Expr.marks] using Expr.uses_nodes items p
  | .inlineTable _ pairs, p => by
      simpa [Expr.node, Expr.marks] using (Expr.sparing_contents pairs).empty p

theorem Expr.uses_nodes : ∀ (es : List Expr) (p : KeyPart),
    uses p (Node.itemKeySites 0 (Expr.nodes es)) ≤ (namesIn (Expr.itemMarks es)).count p
  | [], p => Nat.zero_le _
  | e :: es, p => by
      have he := Expr.uses_node e p
      have hes := Expr.uses_nodes es p
      simp only [Expr.nodes, Node.itemKeySites, Expr.itemMarks, namesIn_append, uses_append,
        uses_under, uses_itemKeySites, List.count_append]
      omega

theorem Expr.sparing_contents : ∀ pairs : List (Key × Expr),
    Contents.Sparing (namesIn (Expr.pairMarks pairs)) (Expr.contents pairs)
  | [] => fun _ _ => Nat.le_refl _
  | (k, e) :: pairs => by
      have hput := Contents.sparing_put (Expr.uses_node e) k.head k.tail
      have hmarks : namesIn (Expr.pairMarks ((k, e) :: pairs)) =
          (k.head :: k.tail ++ namesIn e.marks) ++ namesIn (Expr.pairMarks pairs) := by
        simp [Expr.pairMarks, Key.parts]
      rw [hmarks]
      exact hput.comp (Expr.sparing_contents pairs)

end

/-! ## Headers -/

namespace Contents

variable {new : List KeyPart} {f : Contents → Contents} {arrive : KeyPart → Contents → Contents}

theorem uses_fillLast (hf : Sparing new f) (p : KeyPart) (l : Location) (items : List Node) :
    uses p (Node.itemKeySites 0 (fillLast l f items)) ≤
      uses p (Node.itemKeySites 0 items) + new.count p := by
  unfold fillLast
  split
  · next faults l' kind entries hlast =>
    obtain ⟨init, rfl⟩ := List.getLast?_eq_some_iff.1 hlast
    have hinside := hf p ⟨faults, entries⟩
    rw [List.dropLast_concat]
    simp only [Node.itemKeySites_append, Node.itemKeySites, uses_append, uses_under,
      keySites_node, Node.keySites, keySites, uses_nil] at hinside ⊢
    omega
  · have hinside := hf.empty p
    simp only [Node.itemKeySites_append, Node.itemKeySites, uses_append, uses_under,
      keySites_node, uses_nil]
    omega

theorem sparing_follow (harrive : ∀ k, Sparing (k :: new) (arrive k)) :
    ∀ (k : KeyPart) (ks : List KeyPart), Sparing (k :: ks ++ new) (follow arrive k ks)
  | k, [] => harrive k
  | k, k' :: ks => by
      intro p t
      have hinside := sparing_follow harrive k' ks
      have hpush := hinside.empty p
      have hcount : (k :: k' :: ks ++ new).count p = [k].count p + (k' :: ks ++ new).count p := by
        rw [← List.count_append]
        rfl
      rw [follow, hcount]
      split
      · simp only [uses_push, keySites_node]
        omega
      · next old faults l kind entries hfind =>
        have hset := uses_setNewest (p := p) (c := (k' :: ks ++ new).count p) hfind
          (m := (follow arrive k' ks ⟨if kind = .inlined then faults ++ [⟨.tableExpected, k, old⟩]
            else faults, entries⟩).node l kind) (hinside p _)
        exact Nat.le_trans hset (by omega)
      · next old faults l ofTables items hfind =>
        have hset := uses_setNewest (p := p) (c := (k' :: ks ++ new).count p) hfind
          (m := .array (if ofTables then faults else faults ++ [⟨.arrayOfTablesExpected, k, old⟩]) l
            ofTables (fillLast k.location (follow arrive k' ks) items))
          (uses_fillLast hinside p _ _)
        exact Nat.le_trans hset (by omega)
      · simp only [uses_push, keySites_addFault, keySites_node]
        omega

theorem sparing_openTable (l : Location) (hf : Sparing new f) (k : KeyPart) :
    Sparing (k :: new) (openTable l f k) := by
  intro p t
  have hpush := hf.empty p
  have hcount : (k :: new).count p = [k].count p + new.count p := by
    rw [← List.count_append]
    rfl
  rw [openTable, hcount]
  split
  · simp only [uses_push, keySites_node]
    omega
  · next old faults l' kind entries hfind =>
    have hset := uses_setNewest (p := p) (c := new.count p) hfind
      (m := (f ⟨if kind = .passed then faults else faults ++ [⟨.conflictingKeys, k, old⟩],
        entries⟩).node l' kind) (hf p _)
    exact Nat.le_trans hset (by omega)
  · next old n hnot hfind =>
    have hfill := hf p (t.addFault ⟨.conflictingKeys, k, old⟩)
    rw [keySites_addFault] at hfill
    omega

theorem sparing_openArray (l : Location) (hf : Sparing new f) (k : KeyPart) :
    Sparing (k :: new) (openArray l f k) := by
  intro p t
  have hpush := hf.empty p
  have hcount : (k :: new).count p = [k].count p + new.count p := by
    rw [← List.count_append]
    rfl
  rw [openArray, hcount]
  split
  · simp only [uses_push, Node.keySites, Node.itemKeySites, uses_append, uses_under, uses_nil]
    have : uses p (Node.entryKeySites ((f empty).entries)) = uses p (f empty).keySites := rfl
    simp only [node, Node.keySites]
    omega
  · next old faults l' ofTables items hfind =>
    have hset := uses_setNewest (p := p) (c := new.count p) hfind
      (m := .array (if ofTables then faults else faults ++ [⟨.arrayOfTablesExpected, k, old⟩]) l'
        ofTables (items ++ [(f .empty).node l .regular])) (by
          simp only [Node.keySites, Node.itemKeySites_append, Node.itemKeySites, uses_append,
            uses_under, uses_nil, node]
          exact Nat.add_le_add_left hpush _)
    exact Nat.le_trans hset (by omega)
  · next old n hnot hfind =>
    have hset := uses_setNewest (p := p) (c := 0) hfind
      (m := n.addFault ⟨.arrayOfTablesExpected, k, old⟩) (by simp)
    have hfill := hf p (t.setNewest k.name (n.addFault ⟨.arrayOfTablesExpected, k, old⟩))
    omega

theorem sparing_addSection (s : Section) :
    Sparing (namesIn (s.heading.marks ++ Expr.pairMarks s.pairs)) fun t => t.addSection s := by
  obtain ⟨heading, pairs⟩ := s
  have hfill := Expr.sparing_contents pairs
  cases heading with
  | table l k =>
    have h := sparing_follow (fun k => sparing_openTable l hfill k) k.head k.tail
    simpa [Heading.marks, Key.parts, addSection] using h
  | element l k =>
    have h := sparing_follow (fun k => sparing_openArray l hfill k) k.head k.tail
    simpa [Heading.marks, Key.parts, addSection] using h

theorem sparing_addSections : ∀ ss : List Section,
    Sparing (namesIn (ss.flatMap fun s => s.heading.marks ++ Expr.pairMarks s.pairs))
      (ss.foldl addSection)
  | [] => fun _ _ => Nat.le_refl _
  | s :: ss => by
      rw [List.flatMap_cons, namesIn_append]
      exact (sparing_addSection s).comp (sparing_addSections ss)

end Contents

/-- The table of a document uses each of its names once at the most. -/
theorem Document.uses_contents (d : Document) (p : KeyPart) :
    uses p d.contents.keySites ≤ (namesIn d.marks).count p := by
  have hall := (Expr.sparing_contents d.opening).comp (Contents.sparing_addSections d.sections)
  rw [marks, namesIn_append]
  exact hall.empty p

/-! ## Trees -/

@[simp] theorem uses_itemKeySites_value (p : KeyPart) (i : Nat) (vs : List Value) :
    uses p (Value.itemKeySites i vs) = uses p (Value.itemKeySites 0 vs) := by
  induction vs generalizing i with
  | nil => rfl
  | cons v vs ih => simp [Value.itemKeySites, ih (i + 1), ih 1]

mutual

/-- Entries with one more use what the two use. -/
theorem uses_insertEntry (p : KeyPart) {v : Value} {es gs : List (KeyPart × Value)} {k : KeyPart}
    (h : insertEntry es k v = .ok gs) : uses p (Value.entryKeySites gs) ≤
      uses p (Value.entryKeySites es) + uses p (Value.entryKeySites [(k, v)]) := by
  rcases insertEntry_eq_ok h with ⟨-, rfl⟩ | ⟨before, k₀, l₀, existing, after, l, incoming, merged,
    rfl, -, -, rfl, hinside, rfl⟩
  · simp [Value.entryKeySites_append]
  · have hmerged := uses_insertEntries p hinside
    simp only [Value.entryKeySites_append, Value.entryKeySites, Value.keySites, uses_append,
      uses_cons, uses_under, uses_nil]
    omega
termination_by sizeOf v

theorem uses_insertEntries (p : KeyPart) : ∀ {fs es gs : List (KeyPart × Value)},
    insertEntries es fs = .ok gs →
    uses p (Value.entryKeySites gs) ≤
      uses p (Value.entryKeySites es) + uses p (Value.entryKeySites fs)
  | [], es, gs, h => by
      cases h
      exact Nat.le_refl _
  | (k, v) :: fs, es, gs, h => by
      rw [insertEntries] at h
      split at h
      · next mid hmid =>
        have hfirst := uses_insertEntry p hmid
        have hrest := uses_insertEntries p h
        rw [Value.entryKeySites_cons, uses_append]
        omega
      · cases h
termination_by fs => sizeOf fs

end

mutual

/-- The tree of a node uses no more than the node. -/
theorem Node.uses_value (p : KeyPart) : ∀ {n : Node} {v : Value}, n.value = .ok v →
    uses p v.keySites ≤ uses p n.keySites
  | .scalar _ _ _, v, h => by
      cases h
      exact Nat.le_refl _
  | .array _ _ _ items, v, h => by
      rw [Node.value] at h
      obtain ⟨vs, hvs, rfl⟩ := exists_of_map_eq_ok h
      exact Node.uses_values p hvs
  | .table _ _ _ entries, v, h => by
      rw [Node.value] at h
      obtain ⟨es, hes, rfl⟩ := exists_of_map_eq_ok h
      simpa [Value.keySites, Node.keySites, Value.entryKeySites] using Node.uses_addEntries p hes

theorem Node.uses_values (p : KeyPart) : ∀ {ns : List Node} {vs : List Value},
    Node.values ns = .ok vs →
    uses p (Value.itemKeySites 0 vs) ≤ uses p (Node.itemKeySites 0 ns)
  | [], vs, h => by
      cases h
      exact Nat.le_refl _
  | n :: ns, vs, h => by
      rw [Node.values] at h
      split at h
      · next v hv =>
        obtain ⟨rest, hrest, rfl⟩ := exists_of_map_eq_ok h
        have hfirst := Node.uses_value p hv
        have hlater := Node.uses_values p hrest
        simp only [Value.itemKeySites, Node.itemKeySites, uses_append, uses_under,
          uses_itemKeySites_value, uses_itemKeySites]
        omega
      · cases h

theorem Node.uses_addEntries (p : KeyPart) : ∀ {es : List (KeyPart × Node)}
    {done result : List (KeyPart × Value)}, Node.addEntries done es = .ok result →
    uses p (Value.entryKeySites result) ≤
      uses p (Value.entryKeySites done) + uses p (Node.entryKeySites es)
  | [], done, result, h => by
      cases h
      exact Nat.le_refl _
  | (k, n) :: es, done, result, h => by
      rw [Node.addEntries] at h
      split at h
      · cases h
      · next v hv =>
        split at h
        · next mid hmid =>
          have hvalue := Node.uses_value p hv
          have hfirst := uses_insertEntry p hmid
          have hrest := Node.uses_addEntries p h
          simp only [Value.entryKeySites, Node.entryKeySites, uses_append, uses_cons, uses_under,
            uses_nil] at hfirst ⊢
          omega
        · cases h

end

/-- The tree of a document uses each of its names once at the most. -/
theorem Document.uses_table {d : Document} {t : Table} (h : d.table = .ok t) (p : KeyPart) :
    uses p (Value.entryKeySites t.entries) ≤ (namesIn d.marks).count p := by
  rw [table] at h
  split at h
  · cases h
  · rw [Contents.table] at h
    obtain ⟨es, hes, rfl⟩ := exists_of_map_eq_ok h
    have htable := Node.uses_addEntries p hes
    simp only [Value.entryKeySites, uses_nil, Nat.zero_add] at htable
    exact Nat.le_trans htable (d.uses_contents p)

/-- The entries of an accepted text, wherever they are in its tree, have
their keys at different locations. -/
theorem parse_key_locations {text : List Char} {t : Table} (h : parse text = .ok t) :
    ((Value.entryKeySites t.entries).map fun x => x.2.location).Nodup := by
  obtain ⟨d, hd, htable⟩ := exists_document h
  have hfew : ((Value.entryKeySites t.entries).map Prod.snd).Subperm (namesIn d.marks) :=
    List.subperm_ext_iff.2 fun p _ => Document.uses_table htable p
  have hincreasing := (Document.names_in_order hd).1
  have hdistinct : ((namesIn d.marks).map KeyPart.location).Nodup := by
    refine List.pairwise_map.2 (hincreasing.imp fun {k l} hlt heq => ?_)
    rw [heq] at hlt
    exact Location.not_lt_self _ hlt
  obtain ⟨ps, hperm, hsub⟩ := hfew
  have hps := hdistinct.sublist (hsub.map KeyPart.location)
  have hlocations := (hperm.map KeyPart.location).nodup_iff.1 hps
  rwa [List.map_map] at hlocations

end AuditSettings.Toml
