/-
AuditSettings.Proofs.Toml.Recording — which keys a table under construction
holds and which clashes it records.

Items are taken in the order of the text, so whatever a table holds was
written before what comes in next. Hence a recorded clash is one of two
written keys of one name, of which the one that does not fit is the later;
and of two keys at addresses in one table the one that stands later was
written later. `Kept` states this of a table and of the names
read so far, and `Records` of a step that reads some more names. Every step
of building has it, and so has the whole document.
-/
import AuditSettings.Proofs.Toml.Coherence
import AuditSettings.Proofs.Toml.Newest
import AuditSettings.Proofs.Toml.Order

namespace AuditSettings.Toml

open AuditSettings.Text

/-! ## Keys and clashes of a node -/

mutual

/-- The keys in a node, each at the address that it gives. -/
def Node.keySites : Node → List (Address × KeyPart)
  | .scalar _ _ _ => []
  | .array _ _ _ items => Node.itemKeySites 0 items
  | .table _ _ _ entries => Node.entryKeySites entries

/-- The keys in some items, counted from `i`. -/
def Node.itemKeySites (i : Nat) : List Node → List (Address × KeyPart)
  | [] => []
  | n :: ns => under [.index i] n.keySites ++ Node.itemKeySites (i + 1) ns

/-- The keys of some entries and in them. -/
def Node.entryKeySites : List (KeyPart × Node) → List (Address × KeyPart)
  | [] => []
  | (k, n) :: entries =>
    ([.key k.name], k) :: under [.key k.name] n.keySites ++ Node.entryKeySites entries

end

mutual

/-- All clashes that a node records, at itself or at anything in it. -/
def Node.clashes : Node → List Clash
  | .scalar faults _ _ => faults
  | .array faults _ _ items => faults ++ Node.itemClashes items
  | .table faults _ _ entries => faults ++ Node.entryClashes entries

/-- All clashes that some items record. -/
def Node.itemClashes : List Node → List Clash
  | [] => []
  | n :: ns => n.clashes ++ Node.itemClashes ns

/-- All clashes that some entries record. -/
def Node.entryClashes : List (KeyPart × Node) → List Clash
  | [] => []
  | (_, n) :: entries => n.clashes ++ Node.entryClashes entries

end

/-- The keys in a table under construction. -/
def Contents.keySites (t : Contents) : List (Address × KeyPart) := Node.entryKeySites t.entries

/-- All clashes that a table under construction records. -/
def Contents.clashes (t : Contents) : List Clash := t.faults ++ Node.entryClashes t.entries

namespace Node

theorem entryKeySites_append (es fs : List (KeyPart × Node)) :
    entryKeySites (es ++ fs) = entryKeySites es ++ entryKeySites fs := by
  induction es with
  | nil => rfl
  | cons e es ih => simp [entryKeySites, ih]

theorem entryClashes_append (es fs : List (KeyPart × Node)) :
    entryClashes (es ++ fs) = entryClashes es ++ entryClashes fs := by
  induction es with
  | nil => rfl
  | cons e es ih => simp [entryClashes, ih]

theorem itemKeySites_append (i : Nat) (ns ms : List Node) :
    itemKeySites i (ns ++ ms) = itemKeySites i ns ++ itemKeySites (i + ns.length) ms := by
  induction ns generalizing i with
  | nil => simp [itemKeySites]
  | cons n ns ih =>
    have h : i + 1 + ns.length = i + (ns.length + 1) := by omega
    simp [itemKeySites, ih, h]

theorem itemClashes_append (ns ms : List Node) :
    itemClashes (ns ++ ms) = itemClashes ns ++ itemClashes ms := by
  induction ns with
  | nil => rfl
  | cons n ns ih => simp [itemClashes, ih]

/-- A key in some entries is at an address that begins with the name of one
of them. -/
theorem exists_of_mem_entryKeySites {es : List (KeyPart × Node)} {a : Address} {p : KeyPart}
    (h : (a, p) ∈ entryKeySites es) : ∃ e ∈ es, ∃ c, a = .key e.1.name :: c := by
  induction es with
  | nil => simp [entryKeySites] at h
  | cons e es ih =>
    simp only [entryKeySites, List.cons_append, List.mem_cons, Prod.mk.injEq, List.mem_append,
      mem_under] at h
    rcases h with ⟨rfl, -⟩ | ⟨c, rfl, -⟩ | h
    · exact ⟨e, List.mem_cons_self, [], rfl⟩
    · exact ⟨e, List.mem_cons_self, c, rfl⟩
    · obtain ⟨f, hf, hc⟩ := ih h
      exact ⟨f, List.mem_cons_of_mem _ hf, hc⟩

theorem exists_of_mem_itemKeySites {i : Nat} {ns : List Node} {a : Address} {p : KeyPart}
    (h : (a, p) ∈ itemKeySites i ns) : ∃ j c, a = .index j :: c ∧ i ≤ j ∧ j < i + ns.length := by
  induction ns generalizing i with
  | nil => simp [itemKeySites] at h
  | cons n ns ih =>
    simp only [itemKeySites, List.mem_append, mem_under] at h
    rcases h with ⟨c, rfl, -⟩ | h
    · exact ⟨i, c, rfl, by omega, by simp⟩
    · obtain ⟨j, c, rfl, hlo, hhi⟩ := ih h
      refine ⟨j, c, rfl, by omega, ?_⟩
      simp only [List.length_cons]
      omega

@[simp] theorem keySites_addFault (c : Clash) (n : Node) :
    (n.addFault c).keySites = n.keySites := by
  cases n <;> rfl

theorem mem_clashes_addFault {c d : Clash} {n : Node} :
    d ∈ (n.addFault c).clashes ↔ d ∈ n.clashes ∨ d = c := by
  cases n with
  | scalar faults l v => simp [addFault, clashes]
  | array faults l ofTables items =>
    simp only [addFault, clashes, List.mem_append, List.mem_singleton]
    simp only [or_assoc, or_comm]
  | table faults l kind entries =>
    simp only [addFault, clashes, List.mem_append, List.mem_singleton]
    simp only [or_assoc, or_comm]

/-- No key in a node gives the address of the node. -/
theorem root_not_mem_keySites (n : Node) (p : KeyPart) : ([], p) ∉ n.keySites := by
  intro h
  cases n with
  | scalar faults l v => simp [keySites] at h
  | array faults l ofTables items =>
    obtain ⟨j, c, hc, -⟩ := exists_of_mem_itemKeySites h
    cases hc
  | table faults l kind entries =>
    obtain ⟨e, -, c, hc⟩ := exists_of_mem_entryKeySites h
    cases hc

end Node

/-! ## What was read so far -/

/-- Whether of two keys that give one address the one that stands later was
written later. -/
def Ordered (xs : List (Address × KeyPart)) : Prop :=
  xs.Pairwise fun x y => x.1 = y.1 → x.2.location < y.2.location

/-- Whether wherever two lists give one address, the second does so later in
the text. -/
def Precedes (xs ys : List (Address × KeyPart)) : Prop :=
  ∀ a p q, (a, p) ∈ xs → (a, q) ∈ ys → p.location < q.location

theorem ordered_append {xs ys : List (Address × KeyPart)} :
    Ordered (xs ++ ys) ↔ Ordered xs ∧ Ordered ys ∧ Precedes xs ys := by
  rw [Ordered, List.pairwise_append]
  refine and_congr Iff.rfl (and_congr Iff.rfl ⟨?_, ?_⟩)
  · intro h a p q hp hq
    exact h (a, p) hp (a, q) hq rfl
  · rintro h ⟨a, p⟩ hp ⟨b, q⟩ hq rfl
    exact h a p q hp hq

theorem ordered_under {a : Address} {xs : List (Address × KeyPart)} :
    Ordered (under a xs) ↔ Ordered xs := by
  simp [Ordered, under, List.pairwise_map]

/-- Whether two addresses are in one table: they go down by the same steps,
and differ at the most in the name that comes last. -/
inductive SameTable : Address → Address → Prop where
  | nil : SameTable [] []
  | names (n m : String) : SameTable [.key n] [.key m]
  | cons (s : Step) {a b : Address} (h : SameTable a b) : SameTable (s :: a) (s :: b)

theorem SameTable.refl : ∀ a : Address, SameTable a a
  | [] => .nil
  | s :: a => .cons s (refl a)

theorem sameTable_append {c a b : Address} : SameTable (c ++ a) (c ++ b) ↔ SameTable a b := by
  induction c with
  | nil => rfl
  | cons s c ih =>
    rw [List.cons_append, List.cons_append, ← ih]
    constructor
    · intro h
      generalize hx : c ++ a = x at h ⊢
      generalize hy : c ++ b = y at h ⊢
      cases h with
      | names n m => exact .nil
      | cons s h => exact h
    · exact .cons s

/-- Below the keys of a table the addresses in one table have one key in
front. -/
theorem SameTable.name_eq {n m : String} {a b : Address} (h : SameTable (.key n :: a) (.key m :: b))
    (ha : a ≠ []) : n = m := by
  cases h with
  | names n m => exact absurd rfl ha
  | cons s h => rfl

/-- Whether of two keys in one table the one that stands later was written
later. -/
def InSequence (xs : List (Address × KeyPart)) : Prop :=
  xs.Pairwise fun x y => SameTable x.1 y.1 → x.2.location < y.2.location

/-- Whether wherever two lists have keys in one table, the second has them
later in the text. -/
def Leads (xs ys : List (Address × KeyPart)) : Prop :=
  ∀ a b p q, (a, p) ∈ xs → (b, q) ∈ ys → SameTable a b → p.location < q.location

theorem Leads.mono {xs ys xs' ys' : List (Address × KeyPart)} (h : Leads xs ys) (hx : xs' ⊆ xs)
    (hy : ys' ⊆ ys) : Leads xs' ys' := by
  intro a b p q hp hq
  exact h a b p q (hx hp) (hy hq)

theorem leads_append_left {xs ys zs : List (Address × KeyPart)} :
    Leads (xs ++ ys) zs ↔ Leads xs zs ∧ Leads ys zs := by
  constructor
  · intro h
    exact ⟨h.mono (List.subset_append_left _ _) (List.Subset.refl _),
      h.mono (List.subset_append_right _ _) (List.Subset.refl _)⟩
  · rintro ⟨hx, hy⟩ a b p q hp hq
    rcases List.mem_append.1 hp with hp | hp
    · exact hx a b p q hp hq
    · exact hy a b p q hp hq

theorem inSequence_append {xs ys : List (Address × KeyPart)} :
    InSequence (xs ++ ys) ↔ InSequence xs ∧ InSequence ys ∧ Leads xs ys := by
  rw [InSequence, List.pairwise_append]
  refine and_congr Iff.rfl (and_congr Iff.rfl ⟨?_, ?_⟩)
  · intro h a b p q hp hq
    exact h (a, p) hp (b, q) hq
  · rintro h ⟨a, p⟩ hp ⟨b, q⟩ hq
    exact h a b p q hp hq

theorem inSequence_under {a : Address} {xs : List (Address × KeyPart)} :
    InSequence (under a xs) ↔ InSequence xs := by
  simp [InSequence, under, List.pairwise_map, sameTable_append]

/-- The key of an entry is in no table with the keys inside the entry. -/
theorem leads_entry {s : Step} {k : KeyPart} {xs : List (Address × KeyPart)}
    (hxs : ∀ p, ([], p) ∉ xs) : Leads [([s], k)] (under [s] xs) := by
  intro a b p q hp hq hsame
  obtain ⟨rfl, rfl⟩ := Prod.mk.inj (List.mem_singleton.1 hp)
  obtain ⟨c, rfl, hc⟩ := mem_under.1 hq
  obtain rfl : c = [] := by
    cases hsame with
    | names n m => rfl
    | cons s h =>
      cases h
      rfl
  exact absurd hc (hxs q)

/-- Nor are the keys inside an entry with any of other names. -/
theorem leads_of_name_ne {name : String} {xs ys : List (Address × KeyPart)}
    (hxs : ∀ p, ([], p) ∉ xs) (hys : ∀ y ∈ ys, ∃ n c, y.1 = .key n :: c ∧ n ≠ name) :
    Leads (under [.key name] xs) ys := by
  intro a b p q hp hq hsame
  obtain ⟨c, rfl, hc⟩ := mem_under.1 hp
  obtain ⟨n, d, hb, hn⟩ := hys _ hq
  obtain rfl : b = .key n :: d := hb
  have hne : c ≠ [] := by
    rintro rfl
    exact hxs p hc
  exact absurd (hsame.name_eq hne).symm hn

theorem inSequence_entry {s : Step} {k : KeyPart} {xs : List (Address × KeyPart)}
    (hxs : ∀ p, ([], p) ∉ xs) : InSequence (([s], k) :: under [s] xs) ↔ InSequence xs := by
  rw [← List.singleton_append, inSequence_append, inSequence_under]
  exact ⟨fun h => h.2.1, fun h => ⟨List.pairwise_singleton _ _, h, leads_entry hxs⟩⟩

/-- Two keys that give one address are in one table. -/
theorem InSequence.ordered {xs : List (Address × KeyPart)} (h : InSequence xs) : Ordered xs := by
  refine List.Pairwise.imp (fun {x y} hxy heq => hxy ?_) h
  rw [heq]
  exact .refl y.1

/-- A clash of two keys that were read: they have one name, and the one that
does not fit is the later. -/
structure Clash.Read (ps : List KeyPart) (c : Clash) : Prop where
  old_mem : c.old ∈ ps
  key_mem : c.key ∈ ps
  name_eq : c.old.name = c.key.name
  lt : c.old.location < c.key.location

/-- Clashes and keys that come from the names read so far. -/
structure Kept (cs : List Clash) (xs : List (Address × KeyPart)) (ps : List KeyPart) : Prop where
  clash : ∀ c ∈ cs, c.Read ps
  mem : ∀ x ∈ xs, x.2 ∈ ps
  inSequence : InSequence xs

namespace Kept

variable {cs ds : List Clash} {xs ys : List (Address × KeyPart)} {ps qs : List KeyPart}

theorem nil : Kept [] [] ps := ⟨by simp, by simp, .nil⟩

/-- What was read so far stays read. -/
theorem mono (h : Kept cs xs ps) (hsub : ps ⊆ qs) : Kept cs xs qs where
  clash c hc :=
    have hr := h.clash c hc
    ⟨hsub hr.old_mem, hsub hr.key_mem, hr.name_eq, hr.lt⟩
  mem x hx := hsub (h.mem x hx)
  inSequence := h.inSequence

theorem append_iff : Kept (cs ++ ds) (xs ++ ys) ps ↔
    Kept cs xs ps ∧ Kept ds ys ps ∧ Leads xs ys := by
  constructor
  · intro h
    obtain ⟨hxs, hys, hcross⟩ := inSequence_append.1 h.inSequence
    exact ⟨⟨fun c hc => h.clash c (List.mem_append_left _ hc),
        fun x hx => h.mem x (List.mem_append_left _ hx), hxs⟩,
      ⟨fun c hc => h.clash c (List.mem_append_right _ hc),
        fun x hx => h.mem x (List.mem_append_right _ hx), hys⟩, hcross⟩
  · rintro ⟨hx, hy, hcross⟩
    refine ⟨fun c hc => ?_, fun x hm => ?_,
      inSequence_append.2 ⟨hx.inSequence, hy.inSequence, hcross⟩⟩
    · rcases List.mem_append.1 hc with hc | hc
      · exact hx.clash c hc
      · exact hy.clash c hc
    · rcases List.mem_append.1 hm with hm | hm
      · exact hx.mem x hm
      · exact hy.mem x hm

theorem under_iff {a : Address} : Kept cs (under a xs) ps ↔ Kept cs xs ps := by
  refine ⟨fun h => ⟨h.clash, fun x hx => ?_, inSequence_under.1 h.inSequence⟩,
    fun h => ⟨h.clash, fun x hx => ?_, inSequence_under.2 h.inSequence⟩⟩
  · exact h.mem (a ++ x.1, x.2) (append_mem_under.2 hx)
  · obtain ⟨b, p⟩ := x
    obtain ⟨c, -, hc⟩ := mem_under.1 hx
    exact h.mem (c, p) hc

end Kept

/-- A node that comes from the names read so far. -/
def Node.Kept (n : Node) (ps : List KeyPart) : Prop := Toml.Kept n.clashes n.keySites ps

/-- A table under construction that comes from the names read so far. -/
def Contents.Kept (t : Contents) (ps : List KeyPart) : Prop := Toml.Kept t.clashes t.keySites ps

/-- What was read before and what is read next are in order. -/
theorem Increasing.lt {ps qs : List KeyPart} (h : Increasing (ps ++ qs)) {p q : KeyPart}
    (hp : p ∈ ps) (hq : q ∈ qs) : p.location < q.location :=
  (List.pairwise_append.1 h).2.2 p hp q hq

theorem kept_entry_iff {k : KeyPart} {n : Node} {ps : List KeyPart} :
    Kept n.clashes (([.key k.name], k) :: under [.key k.name] n.keySites) ps ↔
      k ∈ ps ∧ n.Kept ps := by
  have happ : Kept ([] ++ n.clashes) ([([.key k.name], k)] ++ under [.key k.name] n.keySites) ps ↔
      _ := Kept.append_iff
  rw [List.nil_append, List.singleton_append] at happ
  rw [happ, Kept.under_iff]
  constructor
  · rintro ⟨hk, hn, -⟩
    exact ⟨hk.mem _ List.mem_cons_self, hn⟩
  · rintro ⟨hk, hn⟩
    exact ⟨⟨by simp, by simpa using hk, List.pairwise_singleton _ _⟩, hn,
      leads_entry n.root_not_mem_keySites⟩

/-! ## What a step adds -/

/-- A step that reads some more names: what comes out comes from all names
read, and a key in it was there before or was read in the step. -/
structure Adds (xs : List (Address × KeyPart)) (cs : List Clash) (ys : List (Address × KeyPart))
    (ps new : List KeyPart) : Prop where
  kept : Kept cs ys (ps ++ new)
  mem : ∀ x ∈ ys, x ∈ xs ∨ x.2 ∈ new

namespace Contents

variable {t : Contents} {ps new : List KeyPart} {k old : KeyPart} {n m : Node} {name : String}

theorem kept_empty (ps : List KeyPart) : empty.Kept ps := .nil

/-- The entry that is found under a name was read. -/
theorem Kept.of_find? (h : t.Kept ps) (hfind : t.find? name = some (old, n)) :
    old.name = name ∧ old ∈ ps ∧ n.Kept ps := by
  obtain ⟨hold, older, fresh, ht, -⟩ := find?_eq_some_iff.1 hfind
  refine ⟨hold, kept_entry_iff.1 ?_⟩
  rw [Contents.Kept, clashes, keySites, ht, Node.entryClashes_append, Node.entryKeySites_append,
    ← List.append_assoc] at h
  obtain ⟨-, hrest, -⟩ := Kept.append_iff.1 h
  rw [Node.entryClashes, Node.entryKeySites] at hrest
  exact (Kept.append_iff.1 hrest).1

/-- A name that was read before and is read again is a clash of the two. -/
theorem Kept.read (h : t.Kept ps) (hfind : t.find? k.name = some (old, n))
    (hinc : Increasing (ps ++ k :: new)) (kind : ClashKind) :
    Clash.Read (ps ++ k :: new) ⟨kind, k, old⟩ := by
  obtain ⟨hname, hold, -⟩ := h.of_find? hfind
  exact ⟨List.mem_append_left _ hold, by simp, hname, hinc.lt hold List.mem_cons_self⟩

theorem Kept.addFault (h : t.Kept ps) {c : Clash} (hc : c.Read ps) : (t.addFault c).Kept ps := by
  refine ⟨fun d hd => ?_, h.mem, h.inSequence⟩
  simp only [clashes, Contents.addFault, List.mem_append, List.mem_singleton] at hd
  rcases hd with (hd | rfl) | hd
  · exact h.clash d (List.mem_append_left _ hd)
  · exact hc
  · exact h.clash d (List.mem_append_right _ hd)

/-- A new entry comes after all that was read before. -/
theorem Kept.push (h : t.Kept ps) (hinc : Increasing (ps ++ k :: new))
    (hn : Adds [] n.clashes n.keySites (ps ++ [k]) new) :
    Adds t.keySites (t.push k n).clashes (t.push k n).keySites ps (k :: new) := by
  have hn' : n.Kept (ps ++ k :: new) := by
    have := hn.kept
    rwa [List.append_assoc] at this
  have hentry : ∀ x ∈ ([.key k.name], k) :: under [.key k.name] n.keySites, x.2 ∈ k :: new := by
    rintro ⟨a, p⟩ hx
    rcases List.mem_cons.1 hx with hx | hx
    · cases hx
      exact List.mem_cons_self
    · obtain ⟨c, -, hc⟩ := mem_under.1 hx
      exact List.mem_cons_of_mem _ ((hn.mem _ hc).resolve_left (by simp))
  have hsites : (t.push k n).keySites =
      t.keySites ++ (([.key k.name], k) :: under [.key k.name] n.keySites) := by
    simp [keySites, Contents.push, Node.entryKeySites_append, Node.entryKeySites]
  have hclashes : (t.push k n).clashes = t.clashes ++ n.clashes := by
    simp [clashes, Contents.push, Node.entryClashes_append, Node.entryClashes]
  rw [hsites, hclashes]
  constructor
  · refine Kept.append_iff.2 ⟨h.mono (List.subset_append_left _ _),
      kept_entry_iff.2 ⟨by simp, hn'⟩, ?_⟩
    intro a b p q hp hq _
    exact hinc.lt (h.mem _ hp) (hentry _ hq)
  · intro x hx
    rcases List.mem_append.1 hx with hx | hx
    · exact .inl hx
    · exact .inr (hentry x hx)

/-- What was read for the older entries, and for one entry and the newer
ones. -/
theorem kept_split_iff {faults : List Clash} {older fresh : List (KeyPart × Node)} :
    Toml.Kept (faults ++ Node.entryClashes (older ++ (old, n) :: fresh))
      (Node.entryKeySites (older ++ (old, n) :: fresh)) ps ↔
    Toml.Kept (faults ++ Node.entryClashes older) (Node.entryKeySites older) ps ∧
      Toml.Kept (n.clashes ++ Node.entryClashes fresh)
        (([.key old.name], old) :: under [.key old.name] n.keySites ++ Node.entryKeySites fresh)
        ps ∧
      Leads (Node.entryKeySites older)
        (([.key old.name], old) :: under [.key old.name] n.keySites ++
          Node.entryKeySites fresh) := by
  rw [Node.entryClashes_append, Node.entryKeySites_append, ← List.append_assoc,
    Node.entryClashes, Node.entryKeySites, Kept.append_iff]

/-- What is inside the newest entry of a name may change without regard to the
newer entries. -/
theorem leads_newer {fresh : List (KeyPart × Node)} (hf : ∀ e ∈ fresh, e.1.name ≠ old.name)
    {xs : List (Address × KeyPart)}
    (h : Leads (([.key old.name], old) :: xs) (Node.entryKeySites fresh)) (m : Node) :
    Leads (([.key old.name], old) :: under [.key old.name] m.keySites)
      (Node.entryKeySites fresh) := by
  have hinside : Leads (under [.key old.name] m.keySites) (Node.entryKeySites fresh) := by
    refine leads_of_name_ne m.root_not_mem_keySites fun y hy => ?_
    obtain ⟨e, he, c, hc⟩ := Node.exists_of_mem_entryKeySites hy
    exact ⟨e.1.name, c, hc, hf e he⟩
  rw [← List.singleton_append] at h ⊢
  exact leads_append_left.2 ⟨(leads_append_left.1 h).1, hinside⟩

/-- What an entry gains is what its node gains. -/
theorem gains_entry {xs ys : List (Address × KeyPart)} (h : ∀ x ∈ ys, x ∈ xs ∨ x.2 ∈ new)
    (p : KeyPart) :
    ∀ x ∈ ([.key p.name], p) :: under [.key p.name] ys,
      x ∈ ([.key p.name], p) :: under [.key p.name] xs ∨ x.2 ∈ new := by
  rintro ⟨a, q⟩ hx
  rcases List.mem_cons.1 hx with hx | hx
  · exact .inl (hx ▸ List.mem_cons_self)
  · obtain ⟨c, rfl, hc⟩ := mem_under.1 hx
    rcases h _ hc with hc | hc
    · exact .inl (List.mem_cons_of_mem _ (append_mem_under.2 hc))
    · exact .inr hc

/-- A node that is replaced keeps its place: what it gains comes after all
that was read before. -/
theorem Kept.setNewest (h : t.Kept ps) (hinc : Increasing (ps ++ new))
    (hfind : t.find? name = some (old, n)) (hm : Adds n.keySites m.clashes m.keySites ps new) :
    Adds t.keySites (t.setNewest name m).clashes (t.setNewest name m).keySites ps new := by
  obtain ⟨rfl, hold, -⟩ := h.of_find? hfind
  obtain ⟨hname, older, fresh, ht, hf⟩ := find?_eq_some_iff.1 hfind
  have hkept : Toml.Kept (t.faults ++ Node.entryClashes t.entries) (Node.entryKeySites t.entries)
      ps := h
  rw [ht] at hkept
  obtain ⟨holder, hrest, hcross⟩ := kept_split_iff.1 hkept
  obtain ⟨-, hfresh, hnewer⟩ := Kept.append_iff.1 hrest
  have hgains := gains_entry hm.mem old
  have hsub : ps ⊆ ps ++ new := List.subset_append_left _ _
  rw [setNewest_eq ht hname hf]
  constructor
  · refine kept_split_iff.2 ⟨holder.mono hsub, Kept.append_iff.2 ⟨kept_entry_iff.2
      ⟨hsub hold, hm.kept⟩, hfresh.mono hsub, leads_newer hf hnewer m⟩, ?_⟩
    intro a b p q hp hq hsame
    rcases List.mem_append.1 hq with hq | hq
    · rcases hgains _ hq with hq | hq
      · exact hcross a b p q hp (List.mem_append_left _ hq) hsame
      · exact hinc.lt (holder.mem _ hp) hq
    · exact hcross a b p q hp (List.mem_append_right _ hq) hsame
  · intro x hx
    rw [keySites, Node.entryKeySites_append, Node.entryKeySites] at hx
    rw [keySites, ht, Node.entryKeySites_append, Node.entryKeySites]
    rcases List.mem_append.1 hx with hx | hx
    · exact .inl (List.mem_append_left _ hx)
    rcases List.mem_append.1 hx with hx | hx
    · exact (hgains x hx).imp_left fun hx =>
        List.mem_append_right _ (List.mem_append_left _ hx)
    · exact .inl (List.mem_append_right _ (List.mem_append_right _ hx))

/-! ## Steps of building -/

/-- A step that reads some names after all that were read before. -/
def Records (new : List KeyPart) (f : Contents → Contents) : Prop :=
  ∀ ⦃t : Contents⦄ ⦃ps : List KeyPart⦄, t.Kept ps → Increasing (ps ++ new) →
    Adds t.keySites (f t).clashes (f t).keySites ps new

/-- Two steps one after the other read what both read. -/
theorem Records.comp {new' : List KeyPart} {f g : Contents → Contents} (hf : Records new f)
    (hg : Records new' g) : Records (new ++ new') fun t => g (f t) := by
  intro t ps ht hinc
  rw [← List.append_assoc] at hinc
  have h₁ := hf ht (List.pairwise_append.1 hinc).1
  have h₂ := hg h₁.kept hinc
  refine ⟨by simpa using h₂.kept, fun x hx => ?_⟩
  rcases h₂.mem x hx with hx | hx
  · exact (h₁.mem x hx).imp_right (List.mem_append_left _)
  · exact .inr (List.mem_append_right _ hx)

/-- Reading a name and then others. -/
theorem increasing_cons (hinc : Increasing (ps ++ k :: new)) : Increasing ((ps ++ [k]) ++ new) := by
  rwa [List.append_assoc]

/-- A step that comes after a name was read. -/
theorem Records.after_name {f : Contents → Contents} (hf : Records new f) {u : Contents}
    (hu : u.Kept (ps ++ [k])) (hinc : Increasing (ps ++ k :: new)) :
    Adds u.keySites (f u).clashes (f u).keySites ps (k :: new) := by
  have hm := hf hu (increasing_cons hinc)
  refine ⟨?_, fun x hx => (hm.mem x hx).imp_right (List.mem_cons_of_mem _)⟩
  have := hm.kept
  rwa [List.append_assoc] at this

/-- A step inside a new table adds to nothing. -/
theorem Records.insideNew {f : Contents → Contents} (hf : Records new f)
    (hinc : Increasing (ps ++ k :: new)) (l : Location) (kind : TableKind) :
    Adds [] ((f .empty).node l kind).clashes ((f .empty).node l kind).keySites (ps ++ [k]) new :=
  hf (kept_empty _) (increasing_cons hinc)

/-- A new entry of a name that is there already is a clash. -/
theorem Kept.push_clash (h : t.Kept ps) (hinc : Increasing (ps ++ k :: new))
    (hn : Adds [] n.clashes n.keySites (ps ++ [k]) new) (hfind : t.find? k.name = some (old, m))
    (kind : ClashKind) :
    Adds t.keySites ((t.addFault ⟨kind, k, old⟩).push k n).clashes
      ((t.addFault ⟨kind, k, old⟩).push k n).keySites ps (k :: new) := by
  have hpush := h.push hinc hn
  refine ⟨?_, hpush.mem⟩
  have hcomm : (t.addFault ⟨kind, k, old⟩).push k n = (t.push k n).addFault ⟨kind, k, old⟩ := rfl
  rw [hcomm]
  exact Kept.addFault hpush.kept (h.read hfind hinc kind)

theorem records_put {ns : List KeyPart} (hn : n.Kept ns) : ∀ (k : KeyPart) (ks : List KeyPart),
    Records (k :: ks ++ ns) (put n k ks)
  | k, [] => by
      intro t ps ht hinc
      have hnode : Adds [] n.clashes n.keySites (ps ++ [k]) ns :=
        ⟨Kept.mono hn (List.subset_append_right _ _), fun x hx => .inr (hn.mem x hx)⟩
      rw [put, pushNew]
      split
      · next old m hfind => exact ht.push_clash hinc hnode hfind _
      · exact ht.push hinc hnode
  | k, k' :: ks => by
      intro t ps ht hinc
      have hinside := records_put hn k' ks
      rw [put]
      split
      · next old faults l kind entries hfind =>
        split
        · have hu : (Contents.mk faults entries).Kept (ps ++ [k]) :=
            Kept.mono (ht.of_find? hfind).2.2 (List.subset_append_left _ _)
          exact ht.setNewest hinc hfind (hinside.after_name hu hinc)
        · exact ht.push_clash hinc (hinside.insideNew hinc _ _) hfind _
      · next hfind => exact ht.push_clash hinc (hinside.insideNew hinc _ _) hfind _
      · exact ht.push hinc (hinside.insideNew hinc _ _)

end Contents

/-! ## Written values -/

/-- An item at the end of an array is apart from the others. -/
theorem adds_items (init : List Node) {m : Node} {xs : List (Address × KeyPart)}
    {ps new : List KeyPart} (hinit : Kept (Node.itemClashes init) (Node.itemKeySites 0 init) ps)
    (hm : Adds xs m.clashes m.keySites ps new) :
    Adds (Node.itemKeySites 0 init ++ under [.index init.length] xs)
      (Node.itemClashes (init ++ [m])) (Node.itemKeySites 0 (init ++ [m])) ps new := by
  rw [Node.itemClashes_append, Node.itemKeySites_append]
  simp only [Node.itemClashes, Node.itemKeySites, List.append_nil, Nat.zero_add]
  constructor
  · refine Kept.append_iff.2 ⟨hinit.mono (List.subset_append_left _ _),
      Kept.under_iff.2 hm.kept, ?_⟩
    intro a b p q hp hq hsame
    obtain ⟨j, c, rfl, -, hlt⟩ := Node.exists_of_mem_itemKeySites hp
    obtain ⟨d, rfl, -⟩ := mem_under.1 hq
    cases hsame
    omega
  · rintro ⟨a, p⟩ hx
    rcases List.mem_append.1 hx with hx | hx
    · exact .inl (List.mem_append_left _ hx)
    · obtain ⟨c, rfl, hc⟩ := mem_under.1 hx
      exact (hm.mem _ hc).imp_left fun hc => List.mem_append_right _ (append_mem_under.2 hc)

theorem Increasing.of_append {ps qs : List KeyPart} (h : Increasing (ps ++ qs)) :
    Increasing ps ∧ Increasing qs :=
  ⟨(List.pairwise_append.1 h).1, (List.pairwise_append.1 h).2.1⟩

mutual

/-- The node of a value records what is read in the value. -/
theorem Expr.kept_node : ∀ e : Expr, Increasing (namesIn e.marks) → e.node.Kept (namesIn e.marks)
  | .scalar _ _, _ => .nil
  | .array _ items, h => by
      have hitems := Expr.kept_nodes items 0 (by simpa [Expr.marks] using h)
      simpa [Expr.node, Node.Kept, Node.clashes, Node.keySites, Expr.marks] using hitems
  | .inlineTable _ pairs, h => by
      have hpairs := Expr.records_contents pairs (Contents.kept_empty []) (by
        simpa [Expr.marks] using h)
      simpa [Expr.node, Node.Kept, Contents.node, Node.clashes, Node.keySites, Contents.clashes,
        Contents.keySites, Expr.marks] using hpairs.kept

theorem Expr.kept_nodes : ∀ (es : List Expr) (i : Nat), Increasing (namesIn (Expr.itemMarks es)) →
    Kept (Node.itemClashes (Expr.nodes es)) (Node.itemKeySites i (Expr.nodes es))
      (namesIn (Expr.itemMarks es))
  | [], _, _ => .nil
  | e :: es, i, h => by
      rw [Expr.itemMarks, namesIn_append] at h ⊢
      have he := Expr.kept_node e h.of_append.1
      have hes := Expr.kept_nodes es (i + 1) h.of_append.2
      rw [Expr.nodes, Node.itemClashes, Node.itemKeySites]
      refine Kept.append_iff.2 ⟨Kept.under_iff.2 (Kept.mono he (List.subset_append_left _ _)),
        hes.mono (List.subset_append_right _ _), ?_⟩
      intro a b p q hp hq hsame
      obtain ⟨c, rfl, -⟩ := mem_under.1 hp
      obtain ⟨j, d, rfl, hlt, -⟩ := Node.exists_of_mem_itemKeySites hq
      cases hsame
      omega

/-- Pairs are recorded one after the other. -/
theorem Expr.records_contents : ∀ pairs : List (Key × Expr),
    Contents.Records (namesIn (Expr.pairMarks pairs)) (Expr.contents pairs)
  | [] => by
      intro t ps ht _
      rw [Expr.pairMarks, namesIn_nil]
      refine ⟨?_, fun x hx => .inl hx⟩
      rw [List.append_nil]
      exact ht
  | (k, e) :: pairs => by
      intro t ps ht hinc
      have hmarks : namesIn (Expr.pairMarks ((k, e) :: pairs)) =
          (k.head :: k.tail ++ namesIn e.marks) ++ namesIn (Expr.pairMarks pairs) := by
        simp [Expr.pairMarks, Key.parts]
      rw [hmarks] at hinc ⊢
      have he := Expr.kept_node e hinc.of_append.2.of_append.1.of_append.2
      exact (Contents.records_put he k.head k.tail).comp (Expr.records_contents pairs) ht hinc

end

/-! ## Headers -/

namespace Contents

variable {new : List KeyPart} {f : Contents → Contents} {arrive : KeyPart → Contents → Contents}

theorem Records.fillLast (hf : Records new f) {ps : List KeyPart} {k : KeyPart}
    (hinc : Increasing (ps ++ k :: new)) {items : List Node}
    (hitems : Toml.Kept (Node.itemClashes items) (Node.itemKeySites 0 items) ps) (l : Location) :
    Adds (Node.itemKeySites 0 items) (Node.itemClashes (fillLast l f items))
      (Node.itemKeySites 0 (fillLast l f items)) ps (k :: new) := by
  unfold Contents.fillLast
  split
  · next faults l' kind entries hlast =>
    obtain ⟨init, rfl⟩ := List.getLast?_eq_some_iff.1 hlast
    rw [Node.itemClashes_append, Node.itemKeySites_append] at hitems
    simp only [Node.itemClashes, Node.itemKeySites, List.append_nil, Nat.zero_add] at hitems
    obtain ⟨hinit, hlast, -⟩ := Kept.append_iff.1 hitems
    have hu : (Contents.mk faults entries).Kept (ps ++ [k]) :=
      Kept.mono (Kept.under_iff.1 hlast) (List.subset_append_left _ _)
    have := adds_items init (m := (f ⟨faults, entries⟩).node l' kind) hinit (hf.after_name hu hinc)
    rw [List.dropLast_concat, Node.itemKeySites_append]
    simp only [Node.itemKeySites, List.append_nil, Nat.zero_add]
    exact this
  · have hnew := hf.insideNew hinc l .passed
    have hm : Adds [] ((f .empty).node l .passed).clashes ((f .empty).node l .passed).keySites ps
        (k :: new) := by
      refine ⟨?_, fun x hx => (hnew.mem x hx).imp_right (List.mem_cons_of_mem _)⟩
      have := hnew.kept
      rwa [List.append_assoc] at this
    simpa using adds_items items hitems hm

variable {t : Contents} {ps : List KeyPart} {k old : KeyPart}

theorem increasing_upTo (hinc : Increasing (ps ++ k :: new)) : Increasing (ps ++ [k]) :=
  (increasing_cons hinc).of_append.1

/-- A table that a name leads into, with or without a clash of the name. -/
theorem Kept.table_of_find? (h : t.Kept ps) (hinc : Increasing (ps ++ k :: new))
    {faults : List Clash} {l : Location} {kind : TableKind} {entries : List (KeyPart × Node)}
    (hfind : t.find? k.name = some (old, .table faults l kind entries)) :
    (Contents.mk faults entries).Kept (ps ++ [k]) ∧
      ∀ kind, (Contents.mk (faults ++ [⟨kind, k, old⟩]) entries).Kept (ps ++ [k]) := by
  have hu : (Contents.mk faults entries).Kept (ps ++ [k]) :=
    Kept.mono (h.of_find? hfind).2.2 (List.subset_append_left _ _)
  exact ⟨hu, fun kind => hu.addFault (h.read hfind (increasing_upTo hinc) kind)⟩

/-- An array under a name of which the items change, with or without a clash
of the name. -/
theorem Kept.setNewest_array (h : t.Kept ps) (hinc : Increasing (ps ++ k :: new))
    {faults : List Clash} {l : Location} {ofTables : Bool} {items items' : List Node}
    (hfind : t.find? k.name = some (old, .array faults l ofTables items)) (b : Bool)
    (hitems : Toml.Kept (Node.itemClashes items) (Node.itemKeySites 0 items) ps →
      Adds (Node.itemKeySites 0 items) (Node.itemClashes items') (Node.itemKeySites 0 items')
        ps (k :: new)) :
    let n := Node.array (if b then faults else faults ++ [⟨.arrayOfTablesExpected, k, old⟩]) l
      ofTables items'
    Adds t.keySites (t.setNewest k.name n).clashes (t.setNewest k.name n).keySites ps
      (k :: new) := by
  intro n
  have hn := (h.of_find? hfind).2.2
  have hadds := hitems ⟨fun c hc => hn.clash c (List.mem_append_right _ hc), hn.mem,
    hn.inSequence⟩
  refine h.setNewest hinc hfind ⟨⟨fun c hc => ?_, hadds.kept.mem, hadds.kept.inSequence⟩,
    hadds.mem⟩
  have hfaults : ∀ c ∈ faults, c.Read (ps ++ k :: new) := fun c hc =>
    (hn.mono (List.subset_append_left _ _)).clash c (List.mem_append_left _ hc)
  rcases List.mem_append.1 hc with hc | hc
  · split at hc
    · exact hfaults c hc
    · rcases List.mem_append.1 hc with hc | hc
      · exact hfaults c hc
      · obtain rfl := List.mem_singleton.1 hc
        exact h.read hfind hinc _
  · exact hadds.kept.clash c hc

/-- A header records the names on its way and what is done at its end. -/
theorem records_follow (harrive : ∀ k, Records (k :: new) (arrive k)) :
    ∀ (k : KeyPart) (ks : List KeyPart), Records (k :: ks ++ new) (follow arrive k ks)
  | k, [] => harrive k
  | k, k' :: ks => by
      intro t ps ht hinc
      have hinside := records_follow harrive k' ks
      rw [follow]
      split
      · exact ht.push hinc (hinside.insideNew hinc _ _)
      · next old faults l kind entries hfind =>
        obtain ⟨hu, hclash⟩ := ht.table_of_find? hinc hfind
        have hinto : (Contents.mk (if kind = .inlined then faults ++ [⟨.tableExpected, k, old⟩]
            else faults) entries).Kept (ps ++ [k]) := by
          split
          · exact hclash _
          · exact hu
        exact ht.setNewest hinc hfind (hinside.after_name hinto hinc)
      · next old faults l ofTables items hfind =>
        exact ht.setNewest_array hinc hfind ofTables fun hitems => hinside.fillLast hinc hitems _
      · next old faults l v hfind =>
        exact ht.push_clash hinc (hinside.insideNew hinc _ _) hfind _

theorem records_openTable (l : Location) (hf : Records new f) (k : KeyPart) :
    Records (k :: new) (openTable l f k) := by
  intro t ps ht hinc
  rw [openTable]
  split
  · exact ht.push hinc (hf.insideNew hinc _ _)
  · next old faults l' kind entries hfind =>
    obtain ⟨hu, hclash⟩ := ht.table_of_find? hinc hfind
    have hinto : (Contents.mk (if kind = .passed then faults
        else faults ++ [⟨.conflictingKeys, k, old⟩]) entries).Kept (ps ++ [k]) := by
      split
      · exact hu
      · exact hclash _
    exact ht.setNewest hinc hfind (hf.after_name hinto hinc)
  · next old n hnot hfind =>
    have hu : (t.addFault ⟨.conflictingKeys, k, old⟩).Kept (ps ++ [k]) :=
      Kept.addFault (ht.mono (List.subset_append_left _ _)) (ht.read hfind (increasing_upTo hinc) _)
    exact hf.after_name hu hinc

theorem records_openArray (l : Location) (hf : Records new f) (k : KeyPart) :
    Records (k :: new) (openArray l f k) := by
  intro t ps ht hinc
  rw [openArray]
  have hitem := hf.insideNew hinc l .regular
  have hitem' : Adds [] ((f .empty).node l .regular).clashes ((f .empty).node l .regular).keySites
      ps (k :: new) := hf.after_name (kept_empty _) hinc
  split
  · refine ht.push hinc ?_
    have := adds_items [] Kept.nil hitem
    simpa [Node.clashes, Node.keySites, Node.itemKeySites] using this
  · next old faults l' ofTables items hfind =>
    refine ht.setNewest_array hinc hfind ofTables fun hitems => ?_
    simpa using adds_items items hitems hitem'
  · next old n hnot hfind =>
    have hread := ht.read hfind (increasing_upTo hinc) .arrayOfTablesExpected
    have hn := (ht.of_find? hfind).2.2
    have hset : Adds t.keySites (t.setNewest k.name
        (n.addFault ⟨.arrayOfTablesExpected, k, old⟩)).clashes (t.setNewest k.name
        (n.addFault ⟨.arrayOfTablesExpected, k, old⟩)).keySites ps [k] := by
      refine ht.setNewest (increasing_upTo hinc) hfind ⟨⟨fun c hc => ?_, ?_, ?_⟩, ?_⟩
      · rcases Node.mem_clashes_addFault.1 hc with hc | rfl
        · exact (hn.mono (List.subset_append_left _ _)).clash c hc
        · exact hread
      · rw [Node.keySites_addFault]
        exact (hn.mono (List.subset_append_left _ _)).mem
      · rw [Node.keySites_addFault]
        exact hn.inSequence
      · rw [Node.keySites_addFault]
        exact fun x hx => .inl hx
    have h := hf.after_name hset.kept hinc
    refine ⟨h.kept, fun x hx => ?_⟩
    rcases h.mem x hx with hx | hx
    · refine (hset.mem x hx).imp_right fun hx => ?_
      rw [List.mem_singleton.1 hx]
      exact List.mem_cons_self
    · exact .inr hx

/-! ## Documents -/

/-- A section records the names of its header and of its pairs. -/
theorem records_addSection (sec : Section) :
    Records (namesIn (sec.heading.marks ++ Expr.pairMarks sec.pairs))
      fun t => t.addSection sec := by
  obtain ⟨heading, pairs⟩ := sec
  have hfill := Expr.records_contents pairs
  cases heading with
  | table l k =>
    have := records_follow (fun k => records_openTable l hfill k) k.head k.tail
    simpa [Heading.marks, Key.parts, addSection] using this
  | element l k =>
    have := records_follow (fun k => records_openArray l hfill k) k.head k.tail
    simpa [Heading.marks, Key.parts, addSection] using this

theorem records_addSections : ∀ secs : List Section,
    Records (namesIn (secs.flatMap fun s => s.heading.marks ++ Expr.pairMarks s.pairs))
      (secs.foldl addSection)
  | [] => by
      intro t ps ht _
      refine ⟨?_, fun x hx => .inl hx⟩
      rw [List.flatMap_nil, namesIn_nil, List.append_nil]
      exact ht
  | sec :: secs => by
      rw [List.flatMap_cons, namesIn_append]
      exact (records_addSection sec).comp (records_addSections secs)

end Contents

/-- The table of a document whose names are in order comes from them. -/
theorem Document.kept {d : Document} (h : Increasing (namesIn d.marks)) :
    d.contents.Kept (namesIn d.marks) := by
  rw [marks, namesIn_append] at h ⊢
  have hall := (Expr.records_contents d.opening).comp (Contents.records_addSections d.sections)
  exact (hall (Contents.kept_empty []) h).kept

/-! ## The first fault -/

theorem orElse_eq_some {c : Clash} {x y : Option Clash} (h : (x <|> y) = some c) :
    x = some c ∨ y = some c := by
  cases x with
  | none => exact .inr h
  | some d => exact .inl h

theorem Node.mem_clashes_of_faults {n : Node} {c : Clash} (h : c ∈ n.faults) : c ∈ n.clashes := by
  cases n with
  | scalar faults l v => exact h
  | array faults l ofTables items => exact List.mem_append_left _ h
  | table faults l kind entries => exact List.mem_append_left _ h

theorem Node.mem_itemClashes_of_faults {ns : List Node} {c : Clash}
    (h : c ∈ ns.flatMap Node.faults) : c ∈ Node.itemClashes ns := by
  induction ns with
  | nil => simp at h
  | cons n ns ih =>
    rw [List.flatMap_cons, List.mem_append] at h
    rw [itemClashes, List.mem_append]
    exact h.imp mem_clashes_of_faults ih

mutual

theorem Node.firstFault_mem : ∀ {n : Node} {c : Clash}, n.firstFault = some c → c ∈ n.clashes
  | .scalar faults l v, c, h => List.mem_of_head? h
  | .array faults l ofTables items, c, h => by
      have hmem := List.mem_of_head? h
      rw [Node.clashes]
      rcases List.mem_append.1 hmem with hmem | hmem
      · exact List.mem_append_left _ hmem
      · exact List.mem_append_right _ (Node.mem_itemClashes_of_faults hmem)
  | .table faults l kind entries, c, h => by
      rw [Node.firstFault] at h
      rw [Node.clashes]
      rcases orElse_eq_some h with h | h
      · exact List.mem_append_left _ (List.mem_of_head? h)
      · exact List.mem_append_right _ (Node.firstFaultIn_mem h)

theorem Node.firstFaultIn_mem : ∀ {es : List (KeyPart × Node)} {c : Clash},
    Node.firstFaultIn es = some c → c ∈ Node.entryClashes es
  | [], c, h => by cases h
  | (k, n) :: es, c, h => by
      rw [Node.firstFaultIn] at h
      rw [Node.entryClashes]
      rcases orElse_eq_some h with h | h
      · exact List.mem_append_left _ (Node.firstFault_mem h)
      · exact List.mem_append_right _ (Node.firstFaultIn_mem h)

end

/-- The first fault is one of the clashes that were recorded. -/
theorem Contents.firstFault_mem {t : Contents} {c : Clash} (h : t.firstFault = some c) :
    c ∈ t.clashes := by
  rw [Contents.firstFault] at h
  rcases orElse_eq_some h with h | h
  · exact List.mem_append_left _ (List.mem_of_head? h)
  · exact List.mem_append_right _ (Node.firstFaultIn_mem h)

end AuditSettings.Toml
