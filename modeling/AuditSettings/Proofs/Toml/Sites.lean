/-
AuditSettings.Proofs.Toml.Sites — what building does to the sites of a
table under construction.

A table under construction has sites like a tree. The two ways to change
one are to add an entry at its end and to replace the newest entry of a
name, and `find?_frame` says of the second that it leaves a frame of other
sites alone. From these it follows that building only ever adds sites
(`Grows`), and what exactly a pair adds: the tables its dots imply and the
sites of its value, whatever was there before (`mem_sites_put`).
-/
import AuditSettings.Proofs.Toml.Coherence
import AuditSettings.Proofs.Toml.Newest
import Mathlib.Data.List.Perm.Subperm

namespace AuditSettings.Toml

open AuditSettings.Text

/-! ## Sites from further up -/

/-- Whatever can be said of members can be said from further up. -/
theorem mem_under_congr {xs : List Site} (ys : List Site) (h : ∀ x, x ∈ xs ↔ x ∈ ys) (a : Address)
    (x : Site) :
    x ∈ under a xs ↔ x ∈ under a ys := by
  obtain ⟨b, σ⟩ := x
  rw [mem_under, mem_under]
  simp only [h]

theorem subperm_under {xs ys : List Site} (h : xs.Subperm ys) (a : Address) :
    (under a xs).Subperm (under a ys) := by
  obtain ⟨zs, hperm, hsub⟩ := h
  exact ⟨under a zs, hperm.map _, hsub.map _⟩

theorem perm_under {α : Type} {xs ys : List (Address × α)} (h : xs.Perm ys) (a : Address) :
    (under a xs).Perm (under a ys) := h.map _

/-! ## Sites of nodes -/

mutual

/-- A node and everything in it. -/
def Node.sites : Node → List Site
  | .scalar _ _ v => [([], .scalar v)]
  | .array _ _ _ items => ([], .array) :: Node.itemSites 0 items
  | .table _ _ _ entries => ([], .table) :: Node.entrySites entries

/-- Items, counted from `i`, and everything in them. -/
def Node.itemSites (i : Nat) : List Node → List Site
  | [] => []
  | n :: ns => under [.index i] n.sites ++ Node.itemSites (i + 1) ns

/-- Entries and everything in them. -/
def Node.entrySites : List (KeyPart × Node) → List Site
  | [] => []
  | (k, n) :: entries => under [.key k.name] n.sites ++ Node.entrySites entries

end

/-- Everything in a table under construction. -/
def Contents.sites (t : Contents) : List Site := Node.entrySites t.entries

namespace Node

theorem entrySites_append (es fs : List (KeyPart × Node)) :
    entrySites (es ++ fs) = entrySites es ++ entrySites fs := by
  induction es with
  | nil => rfl
  | cons e es ih => simp [entrySites, ih]

theorem itemSites_append (i : Nat) (ns ms : List Node) :
    itemSites i (ns ++ ms) = itemSites i ns ++ itemSites (i + ns.length) ms := by
  induction ns generalizing i with
  | nil => simp [itemSites]
  | cons n ns ih =>
    have h : i + 1 + ns.length = i + (ns.length + 1) := by omega
    simp [itemSites, ih, h]

@[simp] theorem sites_addFault (c : Clash) (n : Node) : (n.addFault c).sites = n.sites := by
  cases n <;> rfl

/-- A node stands at its own address. -/
theorem exists_shape (n : Node) : ∃ σ, ([], σ) ∈ n.sites := by
  cases n with
  | scalar faults l v => exact ⟨.scalar v, by simp [sites]⟩
  | array faults l ofTables items => exact ⟨.array, by simp [sites]⟩
  | table faults l kind entries => exact ⟨.table, by simp [sites]⟩

/-- A site in some entries begins with the name of one of them. -/
theorem mem_entrySites {es : List (KeyPart × Node)} {a : Address} {σ : Shape} :
    (a, σ) ∈ entrySites es ↔ ∃ e ∈ es, ∃ c, a = .key e.1.name :: c ∧ (c, σ) ∈ e.2.sites := by
  induction es with
  | nil => simp [entrySites]
  | cons e es ih => simp [entrySites, mem_under, ih]

/-- A site in some items begins with the index of one of them. -/
theorem exists_of_mem_itemSites {i : Nat} {ns : List Node} {a : Address} {σ : Shape}
    (h : (a, σ) ∈ itemSites i ns) : ∃ j c, a = .index j :: c ∧ i ≤ j ∧ j < i + ns.length := by
  induction ns generalizing i with
  | nil => simp [itemSites] at h
  | cons n ns ih =>
    simp only [itemSites, List.mem_append, mem_under] at h
    rcases h with ⟨c, rfl, -⟩ | h
    · exact ⟨i, c, rfl, by omega, by simp⟩
    · obtain ⟨j, c, rfl, hlo, hhi⟩ := ih h
      refine ⟨j, c, rfl, by omega, ?_⟩
      simp only [List.length_cons]
      omega

/-- Every item stands at its index. -/
theorem index_mem_itemSites {i j : Nat} (ns : List Node) (h : j < ns.length) :
    ∃ σ, ([.index (i + j)], σ) ∈ itemSites i ns := by
  induction ns generalizing i j with
  | nil => simp at h
  | cons n ns ih =>
    cases j with
    | zero =>
      obtain ⟨σ, hσ⟩ := n.exists_shape
      exact ⟨σ, List.mem_append_left _ (mem_under.2 ⟨[], rfl, hσ⟩)⟩
    | succ j =>
      obtain ⟨σ, hσ⟩ := ih (i := i + 1) (j := j) (by simpa using h)
      refine ⟨σ, List.mem_append_right _ ?_⟩
      rwa [show i + (j + 1) = i + 1 + j by omega]

/-- A node with the shape of a table is one. -/
theorem exists_table {n : Node} (h : ([], .table) ∈ n.sites) :
    ∃ faults l kind entries, n = .table faults l kind entries := by
  cases n with
  | scalar faults l v => simp [sites] at h
  | array faults l ofTables items =>
    rw [sites, List.mem_cons] at h
    rcases h with h | h
    · cases h
    · obtain ⟨j, c, hc, -⟩ := exists_of_mem_itemSites h
      cases hc
  | table faults l kind entries => exact ⟨faults, l, kind, entries, rfl⟩

/-- A node with the shape of an array is one. -/
theorem exists_array {n : Node} (h : ([], .array) ∈ n.sites) :
    ∃ faults l ofTables items, n = .array faults l ofTables items := by
  cases n with
  | scalar faults l v => simp [sites] at h
  | array faults l ofTables items => exact ⟨faults, l, ofTables, items, rfl⟩
  | table faults l kind entries => simp [sites, mem_entrySites] at h

end Node

namespace Contents

@[simp] theorem sites_empty : empty.sites = [] := rfl

@[simp] theorem sites_addFault (t : Contents) (c : Clash) : (t.addFault c).sites = t.sites := rfl

@[simp] theorem sites_node (t : Contents) (l : Location) (kind : TableKind) :
    (t.node l kind).sites = ([], .table) :: t.sites := rfl

@[simp] theorem sites_push (t : Contents) (k : KeyPart) (n : Node) :
    (t.push k n).sites = t.sites ++ under [.key k.name] n.sites := by
  simp [sites, push, Node.entrySites_append, Node.entrySites]

/-- Replacing the newest entry of a name changes its sites and leaves those
of all other entries as they are. -/
theorem find?_frame {t : Contents} {name : String} {k : KeyPart} {n : Node}
    (h : t.find? name = some (k, n)) :
    ∃ others, t.sites.Perm (under [.key name] n.sites ++ Node.entrySites others) ∧ ∀ m : Node,
      (t.setNewest name m).sites.Perm (under [.key name] m.sites ++ Node.entrySites others) := by
  obtain ⟨hk, older, fresh, ht, hf⟩ := find?_eq_some_iff.1 h
  refine ⟨older ++ fresh, ?_, fun m => ?_⟩
  · rw [sites, ht, Node.entrySites_append, Node.entrySites_append, Node.entrySites, hk]
    exact List.perm_append_comm_assoc _ _ _
  · rw [sites, setNewest_eq ht hk hf, Node.entrySites_append, Node.entrySites_append,
      Node.entrySites, hk]
    exact List.perm_append_comm_assoc _ _ _

/-! ## Building adds -/

theorem subperm_setNewest {t : Contents} {name : String} {k : KeyPart} {n m : Node}
    (h : t.find? name = some (k, n)) (hnm : n.sites.Subperm m.sites) :
    t.sites.Subperm (t.setNewest name m).sites := by
  obtain ⟨others, hold, hnew⟩ := find?_frame h
  refine hold.subperm.trans (List.Subperm.trans ?_ (hnew m).symm.subperm)
  exact (List.subperm_append_right _).2 (subperm_under hnm _)

/-- A change that loses nothing. -/
def Grows (f : Contents → Contents) : Prop := ∀ t : Contents, t.sites.Subperm (f t).sites

theorem subperm_push (t : Contents) (k : KeyPart) (n : Node) :
    t.sites.Subperm (t.push k n).sites := by
  rw [sites_push]
  exact (List.sublist_append_left _ _).subperm

theorem subperm_table {es : List (KeyPart × Node)} {u : Contents}
    (h : (Node.entrySites es).Subperm u.sites) (faults : List Clash) (l l' : Location)
    (kind kind' : TableKind) :
    (Node.table faults l kind es).sites.Subperm (u.node l' kind').sites :=
  (List.subperm_cons _).2 h

theorem grows_put (n : Node) : ∀ (k : KeyPart) (ks : List KeyPart), Grows (put n k ks)
  | k, [], t => by
      rw [put, pushNew]
      split
      · exact subperm_push _ _ _
      · exact subperm_push _ _ _
  | k, k' :: ks, t => by
      rw [put]
      split
      · next old faults l kind entries hfind =>
        split
        · exact subperm_setNewest hfind (subperm_table (grows_put n k' ks ⟨faults, entries⟩) ..)
        · exact subperm_push _ _ _
      · exact subperm_push _ _ _
      · exact subperm_push _ _ _

theorem grows_contents : ∀ ps : List (Key × Expr), Grows (Expr.contents ps)
  | [], _ => .refl _
  | (k, e) :: ps, t => (grows_put e.node k.head k.tail t).trans (grows_contents ps _)

theorem subperm_fillLast {fill : Contents → Contents} (hfill : Grows fill) (l : Location)
    (items : List Node) :
    (Node.itemSites 0 items).Subperm (Node.itemSites 0 (fillLast l fill items)) := by
  unfold fillLast
  split
  · next faults l' kind entries hlast =>
    obtain ⟨init, rfl⟩ := List.getLast?_eq_some_iff.1 hlast
    rw [List.dropLast_concat, Node.itemSites_append, Node.itemSites_append]
    refine (List.subperm_append_left _).2 ?_
    simp only [Node.itemSites, List.append_nil]
    exact subperm_under (subperm_table (hfill ⟨faults, entries⟩) ..) _
  · rw [Node.itemSites_append]
    exact (List.sublist_append_left _ _).subperm

theorem grows_follow {arrive : KeyPart → Contents → Contents} (harrive : ∀ k, Grows (arrive k)) :
    ∀ (k : KeyPart) (ks : List KeyPart), Grows (follow arrive k ks)
  | k, [], t => harrive k t
  | k, k' :: ks, t => by
      have hinside := grows_follow harrive k' ks
      rw [follow]
      split
      · exact subperm_push _ _ _
      · next old faults l kind entries hfind =>
        exact subperm_setNewest hfind (subperm_table (hinside ⟨_, entries⟩) ..)
      · next old faults l ofTables items hfind =>
        exact subperm_setNewest hfind ((List.subperm_cons _).2 (subperm_fillLast hinside ..))
      · exact subperm_push _ _ _

theorem grows_openTable (l : Location) {fill : Contents → Contents} (hfill : Grows fill)
    (k : KeyPart) : Grows (openTable l fill k) := by
  intro t
  rw [openTable]
  split
  · exact subperm_push _ _ _
  · next old faults l' kind entries hfind =>
    exact subperm_setNewest hfind (subperm_table (hfill ⟨_, entries⟩) ..)
  · next old n _ _ => exact hfill (t.addFault ⟨.conflictingKeys, k, old⟩)

theorem grows_openArray (l : Location) {fill : Contents → Contents} (hfill : Grows fill)
    (k : KeyPart) : Grows (openArray l fill k) := by
  intro t
  rw [openArray]
  split
  · exact subperm_push _ _ _
  · next old faults l' ofTables items hfind =>
    refine subperm_setNewest hfind ((List.subperm_cons _).2 ?_)
    rw [Node.itemSites_append]
    exact (List.sublist_append_left _ _).subperm
  · next hfind =>
    refine List.Subperm.trans ?_ (hfill _)
    refine subperm_setNewest hfind ?_
    rw [Node.sites_addFault]

/-- A section only adds. -/
theorem grows_addSection (s : Section) : Grows fun t => t.addSection s := by
  intro t
  simp only [addSection]
  split
  · exact grows_follow (fun k => grows_openTable _ (grows_contents _) k) _ _ t
  · exact grows_follow (fun k => grows_openArray _ (grows_contents _) k) _ _ t

theorem grows_addSections : ∀ ss : List Section, Grows (ss.foldl addSection)
  | [], _ => .refl _
  | s :: ss, t => (grows_addSection s t).trans (grows_addSections ss _)

/-! ## What a pair adds -/

/-- A pair adds the tables that its dots imply and what its value has. That
holds whatever was there, for a table that cannot be extended is given a
second one of its name. -/
theorem mem_sites_put (n : Node) : ∀ (k : KeyPart) (ks : List KeyPart) (t : Contents) (x : Site),
    x ∈ (put n k ks t).sites ↔
      x ∈ t.sites ∨ x ∈ Key.implied ⟨k, ks⟩ ∨ x ∈ under (Key.address ⟨k, ks⟩) n.sites
  | k, [], t, x => by
      have hpush : ∀ u : Contents, u.sites = t.sites → (x ∈ (u.push k n).sites ↔
          x ∈ t.sites ∨ x ∈ Key.implied ⟨k, []⟩ ∨ x ∈ under (Key.address ⟨k, []⟩) n.sites) := by
        intro u hu
        simp [hu, Key.implied, Key.implied.impliedFrom, Key.address, Key.parts]
      rw [put, pushNew]
      split
      · exact hpush _ (sites_addFault t _)
      · exact hpush t rfl
  | k, k' :: ks, t, x => by
      have himplied : Key.implied ⟨k, k' :: ks⟩ =
          ([.key k.name], .table) :: under [.key k.name] (Key.implied ⟨k', ks⟩) := rfl
      have haddress : Key.address ⟨k, k' :: ks⟩ = [.key k.name] ++ Key.address ⟨k', ks⟩ := rfl
      have hpush : ∀ u : Contents, u.sites = t.sites →
          (x ∈ (u.push k ((put n k' ks empty).node k.location .dotted)).sites ↔
            x ∈ t.sites ∨ x ∈ Key.implied ⟨k, k' :: ks⟩ ∨
              x ∈ under (Key.address ⟨k, k' :: ks⟩) n.sites) := by
        intro u hu
        have hinside := mem_under_congr (Key.implied ⟨k', ks⟩ ++
          under (Key.address ⟨k', ks⟩) n.sites)
          (fun y => by rw [mem_sites_put n k' ks empty y]; simp) [.key k.name] x
        rw [sites_push, hu, sites_node, under_cons, List.mem_append, List.mem_cons, hinside,
          himplied, haddress]
        simp [or_assoc]
      rw [put]
      split
      · next old faults l kind entries hfind =>
        split
        · obtain ⟨others, hold, hnew⟩ := find?_frame hfind
          have hinside := mem_under_congr (Node.entrySites entries ++
            (Key.implied ⟨k', ks⟩ ++ under (Key.address ⟨k', ks⟩) n.sites))
            (fun y => by rw [mem_sites_put n k' ks ⟨faults, entries⟩ y]; simp [sites])
            [.key k.name] x
          rw [(hnew _).mem_iff, hold.mem_iff, sites_node, under_cons, Node.sites, under_cons,
            List.mem_append, List.mem_cons, hinside, himplied, haddress]
          simp
          grind
        · exact hpush _ (sites_addFault t _)
      · exact hpush _ (sites_addFault t _)
      · exact hpush t rfl

end Contents

/-! ## What written values add -/

mutual

/-- The node of a value has what is written in it and what dots imply in
it. -/
theorem Expr.mem_sites_node : ∀ (e : Expr) (x : Site),
    x ∈ e.node.sites ↔ x ∈ e.written ∨ x ∈ e.implied
  | .scalar l v, x => by simp [Expr.node, Node.sites, Expr.written, Expr.implied]
  | .array l items, x => by
      rw [Expr.node, Node.sites, List.mem_cons, Expr.mem_itemSites_nodes items 0 x, Expr.written,
        Expr.implied, List.mem_cons, or_assoc]
  | .inlineTable l pairs, x => by
      rw [Expr.node, Contents.sites_node, List.mem_cons, Expr.mem_sites_contents pairs .empty x,
        Expr.written, Expr.implied, List.mem_cons, or_assoc]
      simp

theorem Expr.mem_itemSites_nodes : ∀ (es : List Expr) (i : Nat) (x : Site),
    x ∈ Node.itemSites i (Expr.nodes es) ↔ x ∈ Expr.itemsWritten i es ∨ x ∈ Expr.itemsImplied i es
  | [], i, x => by simp [Expr.nodes, Node.itemSites, Expr.itemsWritten, Expr.itemsImplied]
  | e :: es, i, x => by
      have he := mem_under_congr (e.written ++ e.implied)
        (fun y => by rw [Expr.mem_sites_node e y, List.mem_append]) [.index i] x
      rw [Expr.nodes, Node.itemSites, List.mem_append, he, Expr.mem_itemSites_nodes es (i + 1) x,
        Expr.itemsWritten, Expr.itemsImplied, under_append, List.mem_append, List.mem_append,
        List.mem_append]
      exact or_or_or_comm

/-- Pairs add their values and what dots imply. -/
theorem Expr.mem_sites_contents : ∀ (ps : List (Key × Expr)) (t : Contents) (x : Site),
    x ∈ (Expr.contents ps t).sites ↔
      x ∈ t.sites ∨ x ∈ Expr.pairsWritten ps ∨ x ∈ Expr.pairsImplied ps
  | [], t, x => by simp [Expr.contents, Expr.pairsWritten, Expr.pairsImplied]
  | (k, e) :: ps, t, x => by
      have he := mem_under_congr (e.written ++ e.implied)
        (fun y => by rw [Expr.mem_sites_node e y, List.mem_append]) k.address x
      rw [Expr.contents, Expr.mem_sites_contents ps _ x, Contents.mem_sites_put, he,
        Expr.pairsWritten, Expr.pairsImplied, under_append]
      simp only [List.mem_append]
      simp only [or_assoc, or_left_comm]

end

end AuditSettings.Toml
