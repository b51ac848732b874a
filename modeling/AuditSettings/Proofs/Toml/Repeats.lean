/-
AuditSettings.Proofs.Toml.Repeats — a table that has a name twice has a
fault.

An entry is only ever added under a name that its table lacks, or along
with a fault of that table. So in a table under construction every table
without faults of its own has each name once (`Faulted`), and every step of
building keeps it so. Where faults are seen and none is found, no two keys
give one address.
-/
import AuditSettings.Proofs.Toml.Recording
import AuditSettings.Proofs.Toml.Seen

namespace AuditSettings.Toml

open AuditSettings.Text

/-! ## Names and faults -/

/-- The names of some entries. -/
def names (es : List (KeyPart × Node)) : List String := es.map fun e => e.1.name

mutual

/-- Whether every table in a node has each of its names once or has a fault
of its own. -/
def Node.Faulted : Node → Prop
  | .scalar _ _ _ => True
  | .array _ _ _ items => Node.ItemsFaulted items
  | .table faults _ _ entries => (faults = [] → (names entries).Nodup) ∧ Node.EntriesFaulted entries

/-- Whether that is so in some items. -/
def Node.ItemsFaulted : List Node → Prop
  | [] => True
  | n :: ns => n.Faulted ∧ Node.ItemsFaulted ns

/-- Whether that is so in some entries. -/
def Node.EntriesFaulted : List (KeyPart × Node) → Prop
  | [] => True
  | (_, n) :: entries => n.Faulted ∧ Node.EntriesFaulted entries

end

theorem Node.itemsFaulted_iff {ns : List Node} : ItemsFaulted ns ↔ ∀ n ∈ ns, n.Faulted := by
  induction ns with
  | nil => simp [ItemsFaulted]
  | cons n ns ih => simp [ItemsFaulted, ih]

theorem Node.entriesFaulted_iff {es : List (KeyPart × Node)} :
    EntriesFaulted es ↔ ∀ e ∈ es, e.2.Faulted := by
  induction es with
  | nil => simp [EntriesFaulted]
  | cons e es ih => simp [EntriesFaulted, ih]

theorem Node.Faulted.addFault {n : Node} (h : n.Faulted) (c : Clash) : (n.addFault c).Faulted := by
  cases n with
  | scalar faults l v => trivial
  | array faults l ofTables items => exact h
  | table faults l kind entries => exact ⟨by simp, h.2⟩

namespace Contents

variable {t : Contents} {k old : KeyPart} {n m : Node} {name : String}

/-- Whether every table in a table under construction has each of its names
once or has a fault of its own. -/
def Faulted (t : Contents) : Prop :=
  (t.faults = [] → (names t.entries).Nodup) ∧ Node.EntriesFaulted t.entries

theorem faulted_empty : empty.Faulted := ⟨fun _ => .nil, trivial⟩

theorem Faulted.of_find? (h : t.Faulted) (hfind : t.find? name = some (old, n)) : n.Faulted := by
  obtain ⟨-, older, fresh, ht, -⟩ := find?_eq_some_iff.1 hfind
  refine Node.entriesFaulted_iff.1 h.2 (old, n) ?_
  simp [ht]

/-- More faults ask for less. -/
theorem Faulted.more {faults faults' : List Clash} {es : List (KeyPart × Node)}
    (h : Faulted ⟨faults, es⟩) (hmore : faults' = [] → faults = []) : Faulted ⟨faults', es⟩ :=
  ⟨fun hf => h.1 (hmore hf), h.2⟩

theorem Faulted.addFault (h : t.Faulted) (c : Clash) : (t.addFault c).Faulted :=
  h.more (by simp)

/-- An entry is added under a new name. -/
theorem Faulted.push (h : t.Faulted) (hn : n.Faulted) (hfind : t.find? k.name = none) :
    (t.push k n).Faulted := by
  refine ⟨fun hf => ?_, ?_⟩
  · have hlacks := find?_eq_none_iff.1 hfind
    have hnames : names (t.push k n).entries = names t.entries ++ [k.name] := by
      simp [names, Contents.push]
    rw [hnames]
    refine (h.1 hf).append (List.nodup_singleton _) ?_
    rw [List.disjoint_singleton]
    intro hmem
    obtain ⟨e, he, hname⟩ := List.mem_map.1 hmem
    exact hlacks e he hname
  · rw [Node.entriesFaulted_iff, Contents.push, List.forall_mem_append]
    exact ⟨Node.entriesFaulted_iff.1 h.2, by simpa using hn⟩

/-- An entry is added along with a fault. -/
theorem Faulted.push_addFault (h : t.Faulted) (hn : n.Faulted) (c : Clash) :
    ((t.addFault c).push k n).Faulted := by
  refine ⟨by simp [Contents.push, Contents.addFault], ?_⟩
  rw [Node.entriesFaulted_iff, Contents.push, List.forall_mem_append]
  exact ⟨Node.entriesFaulted_iff.1 h.2, by simpa using hn⟩

/-- A node is replaced under its name. -/
theorem Faulted.setNewest (h : t.Faulted) (hfind : t.find? name = some (old, n))
    (hm : m.Faulted) : (t.setNewest name m).Faulted := by
  obtain ⟨hname, older, fresh, ht, hf⟩ := find?_eq_some_iff.1 hfind
  obtain ⟨hnames, hentries⟩ := h
  rw [ht] at hnames hentries
  rw [setNewest_eq ht hname hf]
  refine ⟨fun hfaults => ?_, ?_⟩
  · have hsame : names (older ++ (old, m) :: fresh) = names (older ++ (old, n) :: fresh) := by
      simp [names]
    rw [hsame]
    exact hnames hfaults
  · rw [Node.entriesFaulted_iff] at hentries ⊢
    simp only [List.forall_mem_append, List.forall_mem_cons] at hentries ⊢
    exact ⟨hentries.1, hm, hentries.2.2⟩

/-! ## Building -/

theorem Faulted.put (hn : n.Faulted) (k : KeyPart) (ks : List KeyPart) (h : t.Faulted) :
    (Contents.put n k ks t).Faulted := by
  induction ks generalizing k t with
  | nil =>
    rw [Contents.put, pushNew]
    split
    · exact h.push_addFault hn _
    · next hfind => exact h.push hn hfind
  | cons k' ks ih =>
    have hnew : ((Contents.put n k' ks empty).node k.location .dotted).Faulted :=
      ih k' faulted_empty
    rw [Contents.put]
    split
    · next old faults l kind entries hfind =>
      split
      · exact h.setNewest hfind (ih k' (h.of_find? hfind))
      · exact h.push_addFault hnew _
    · exact h.push_addFault hnew _
    · next hfind => exact h.push hnew hfind

end Contents

mutual

theorem Expr.faulted_node : ∀ e : Expr, e.node.Faulted
  | .scalar _ _ => trivial
  | .array _ items => Expr.faulted_nodes items
  | .inlineTable _ pairs => Expr.faulted_contents pairs Contents.faulted_empty

theorem Expr.faulted_nodes : ∀ es : List Expr, Node.ItemsFaulted (Expr.nodes es)
  | [] => trivial
  | e :: es => ⟨Expr.faulted_node e, Expr.faulted_nodes es⟩

theorem Expr.faulted_contents : ∀ (ps : List (Key × Expr)) {t : Contents}, t.Faulted →
    (Expr.contents ps t).Faulted
  | [], _, h => h
  | (k, e) :: ps, _, h =>
      Expr.faulted_contents ps (h.put (Expr.faulted_node e) k.head k.tail)

end

namespace Contents

variable {t : Contents} {fill : Contents → Contents}

theorem faulted_fillLast (hfill : ∀ u : Contents, u.Faulted → (fill u).Faulted) (l : Location)
    {items : List Node} (h : Node.ItemsFaulted items) :
    Node.ItemsFaulted (fillLast l fill items) := by
  rw [Node.itemsFaulted_iff] at h ⊢
  unfold fillLast
  split
  · next faults l' kind entries hlast =>
    obtain ⟨init, rfl⟩ := List.getLast?_eq_some_iff.1 hlast
    rw [List.dropLast_concat]
    rw [List.forall_mem_append, List.forall_mem_singleton] at h ⊢
    exact ⟨h.1, hfill ⟨faults, entries⟩ h.2⟩
  · rw [List.forall_mem_append, List.forall_mem_singleton]
    exact ⟨h, hfill empty faulted_empty⟩

theorem faulted_follow {arrive : KeyPart → Contents → Contents}
    (harrive : ∀ (k : KeyPart) (u : Contents), u.Faulted → (arrive k u).Faulted)
    (k : KeyPart) (ks : List KeyPart) (h : t.Faulted) : (follow arrive k ks t).Faulted := by
  induction ks generalizing k t with
  | nil => exact harrive k t h
  | cons k' ks ih =>
    have hnew : ((follow arrive k' ks empty).node k.location .passed).Faulted := ih k' faulted_empty
    rw [follow]
    split
    · next hfind => exact h.push hnew hfind
    · next old faults l kind entries hfind =>
      refine h.setNewest hfind (ih k' ?_)
      refine Faulted.more (h.of_find? hfind) ?_
      split <;> simp
    · next old faults l ofTables items hfind =>
      exact h.setNewest hfind (faulted_fillLast (fun _ => ih k') k.location (h.of_find? hfind))
    · exact h.push_addFault hnew _

theorem faulted_openTable (hfill : ∀ u : Contents, u.Faulted → (fill u).Faulted) (l : Location)
    (k : KeyPart) (h : t.Faulted) : (openTable l fill k t).Faulted := by
  rw [openTable]
  split
  · next hfind =>
    exact h.push (show ((fill empty).node l .regular).Faulted from hfill _ faulted_empty) hfind
  · next old faults l' kind entries hfind =>
    refine h.setNewest hfind (hfill _ ?_)
    refine Faulted.more (h.of_find? hfind) ?_
    split <;> simp
  · exact hfill _ (h.addFault _)

theorem faulted_openArray (hfill : ∀ u : Contents, u.Faulted → (fill u).Faulted) (l : Location)
    (k : KeyPart) (h : t.Faulted) : (openArray l fill k t).Faulted := by
  have hitem : ((fill empty).node l .regular).Faulted := hfill _ faulted_empty
  rw [openArray]
  split
  · next hfind =>
    refine h.push ?_ hfind
    exact ⟨hitem, trivial⟩
  · next old faults l' ofTables items hfind =>
    refine h.setNewest hfind (Node.itemsFaulted_iff.2 ?_)
    rw [List.forall_mem_append, List.forall_mem_singleton]
    exact ⟨Node.itemsFaulted_iff.1 (h.of_find? hfind), hitem⟩
  · next old n _ hfind => exact hfill _ (h.setNewest hfind ((h.of_find? hfind).addFault _))

theorem faulted_addSection (s : Section) (h : t.Faulted) : (t.addSection s).Faulted := by
  have hfill := fun u : Contents => Expr.faulted_contents s.pairs (t := u)
  simp only [addSection]
  split
  · exact faulted_follow (fun k _ => faulted_openTable hfill _ k) _ _ h
  · exact faulted_follow (fun k _ => faulted_openArray hfill _ k) _ _ h

theorem faulted_addSections (ss : List Section) (h : t.Faulted) :
    (ss.foldl addSection t).Faulted := by
  induction ss generalizing t with
  | nil => exact h
  | cons s ss ih => exact ih (faulted_addSection s h)

end Contents

/-! ## Keys in sight -/

namespace Node

/-- A key in some entries names one of them or is in it. -/
theorem exists_entry {es : List (KeyPart × Node)} {x : Step} {a : Address} {p : KeyPart}
    (h : (x :: a, p) ∈ entryKeySites es) : ∃ e ∈ es, x = .key e.1.name ∧
      (a = [] ∧ p = e.1 ∨ (a, p) ∈ e.2.keySites) := by
  induction es with
  | nil => cases h
  | cons e es ih =>
    obtain ⟨k, n⟩ := e
    rw [entryKeySites, List.cons_append, List.mem_cons, List.mem_append] at h
    rcases h with h | h | h
    · cases h
      exact ⟨_, List.mem_cons_self, rfl, .inl ⟨rfl, rfl⟩⟩
    · obtain ⟨b, hb, hmem⟩ := mem_under.1 h
      cases hb
      exact ⟨_, List.mem_cons_self, rfl, .inr hmem⟩
    · obtain ⟨f, hf, rest⟩ := ih h
      exact ⟨f, List.mem_cons_of_mem _ hf, rest⟩

/-- A key in some items is in one of them. -/
theorem exists_item {i : Nat} {ns : List Node} {x : Step} {a : Address} {p : KeyPart}
    (h : (x :: a, p) ∈ itemKeySites i ns) :
    ∃ j, x = .index (i + j) ∧ ∃ n, ns[j]? = some n ∧ (a, p) ∈ n.keySites := by
  induction ns generalizing i with
  | nil => cases h
  | cons n ns ih =>
    rcases List.mem_append.1 h with h | h
    · obtain ⟨b, hb, hmem⟩ := mem_under.1 h
      cases hb
      exact ⟨0, rfl, n, rfl, hmem⟩
    · obtain ⟨j, rfl, m, hm, hmem⟩ := ih h
      exact ⟨j + 1, by rw [Nat.add_assoc, Nat.add_comm 1], m, hm, hmem⟩

/-- Where no fault is found, a key in sight is the only one of its
address. -/
theorem eq_of_mem_keySites {n : Node} {s : Sight} {a : Address} {p q : KeyPart}
    (hn : n.Faulted) (hclean : n.Clean s) (hreach : s.Reaches a) (hp : (a, p) ∈ n.keySites)
    (hq : (a, q) ∈ n.keySites) : p = q := by
  -- on the address, since two keys of one address go the same way down
  induction a generalizing n s with
  | nil => exact absurd hp (n.root_not_mem_keySites p)
  | cons x a ih =>
    obtain ⟨hs, hreach⟩ := hreach
    cases n with
    | scalar faults l v => cases hp
    | array faults l ofTables items =>
      obtain ⟨i, rfl, m, hm, hinp⟩ := exists_item hp
      obtain ⟨j, hj, m', hm', hinq⟩ := exists_item hq
      simp only [Nat.zero_add, Step.index.injEq] at hj
      subst hj
      obtain rfl : m = m' := Option.some.inj (hm.symm.trans hm')
      have hmem := List.mem_of_getElem? hm
      exact ih (itemsFaulted_iff.1 hn m hmem) (clean_item hclean _ hmem) hreach hinp hinq
    | table faults l kind entries =>
      obtain ⟨hfaults, hentries⟩ := (Contents.clean_iff.1 (clean_table.1 hclean)).resolve_left hs
      obtain ⟨e, he, rfl, hinp⟩ := exists_entry hp
      obtain ⟨f, hf, hname, hinq⟩ := exists_entry hq
      obtain rfl : e = f := List.inj_on_of_nodup_map (hn.1 hfaults) he hf (Step.key.inj hname)
      have hinside := ih (entriesFaulted_iff.1 hn.2 e he) (hentries e he) hreach
      rcases hinp with ⟨rfl, rfl⟩ | hinp
      · rcases hinq with ⟨-, rfl⟩ | hinq
        · rfl
        · exact absurd hinq (e.2.root_not_mem_keySites q)
      · rcases hinq with ⟨rfl, rfl⟩ | hinq
        · exact absurd hinp (e.2.root_not_mem_keySites p)
        · exact hinside hinp hinq

end Node

/-- In a document without a fault in sight, a key in sight is the only one
of its address. -/
theorem Document.eq_of_mem_keySites {d : Document} (h : d.contents.firstFault = none)
    {a : Address} {p q : KeyPart} (hreach : Sight.far.Reaches a)
    (hp : (a, p) ∈ d.contents.keySites) (hq : (a, q) ∈ d.contents.keySites) : p = q := by
  have hfaulted : d.contents.Faulted :=
    Contents.faulted_addSections d.sections (Expr.faulted_contents _ Contents.faulted_empty)
  have hclean : d.contents.Clean .far := h
  exact Node.eq_of_mem_keySites (n := d.contents.node .origin .regular) hfaulted hclean hreach hp hq

end AuditSettings.Toml
