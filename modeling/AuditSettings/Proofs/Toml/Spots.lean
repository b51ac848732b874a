/-
AuditSettings.Proofs.Toml.Spots — where values are located.

A spot is a value with its location, and with the key part that names it
if it is an entry. A tree has its spots at their addresses. A document has
its own: what is written as a value, at the location of its first
character. In between, a table under construction has both: its nodes have
locations of their own, and their extents, which are the locations that
its tree will have.

The extent of a written array or inline table is its own bracket as long
as nothing inside it is located before that (`Solid`). Then the spots of a
table are those of the values written in it, where they are written, and
those of the tables and arrays that headers and dots have made.
-/
import AuditSettings.Proofs.Toml.Coherence
import AuditSettings.Proofs.Toml.Order

namespace AuditSettings.Toml

open AuditSettings.Text

/-- A value and its location, and the key part that names it. -/
structure Spot where
  key : Option KeyPart
  location : Location
  shape : Shape
deriving DecidableEq, Repr

/-- How the value of a spot begins when it is written. -/
def Spot.mark (x : Spot) : Mark :=
  match x.shape with
  | .scalar v => .scalar x.location v
  | .array => .openBracket x.location
  | .table => .openBrace x.location

/-! ## Spots of a tree -/

mutual

/-- A value that a key part may name, and everything in it. -/
def Value.spots (key : Option KeyPart) : Value → List (Address × Spot)
  | .scalar l v => [([], ⟨key, l, .scalar v⟩)]
  | .array l items => ([], ⟨key, l, .array⟩) :: Value.itemSpots 0 items
  | .table l entries => ([], ⟨key, l, .table⟩) :: Value.entrySpots entries

/-- Items, counted from `i`, and everything in them. -/
def Value.itemSpots (i : Nat) : List Value → List (Address × Spot)
  | [] => []
  | v :: vs => under [.index i] (v.spots none) ++ Value.itemSpots (i + 1) vs

/-- Entries and everything in them. -/
def Value.entrySpots : List (KeyPart × Value) → List (Address × Spot)
  | [] => []
  | (k, v) :: entries => under [.key k.name] (v.spots (some k)) ++ Value.entrySpots entries

end

/-- Everything in a tree. -/
def Table.spots (t : Table) : List (Address × Spot) := Value.entrySpots t.entries

/-! ## Spots of a document -/

/-- The last part of a key. -/
def Key.last (k : Key) : KeyPart := k.tail.getLastD k.head

mutual

/-- A written value that a key part may name, and all that is written in
it. -/
def Expr.spots (key : Option KeyPart) : Expr → List Spot
  | .scalar l v => [⟨key, l, .scalar v⟩]
  | .array l items => ⟨key, l, .array⟩ :: Expr.itemSpots items
  | .inlineTable l pairs => ⟨key, l, .table⟩ :: Expr.pairSpots pairs

/-- Written items. -/
def Expr.itemSpots : List Expr → List Spot
  | [] => []
  | e :: es => e.spots none ++ Expr.itemSpots es

/-- The values of some pairs, each named by the last part of its key. -/
def Expr.pairSpots : List (Key × Expr) → List Spot
  | [] => []
  | (k, e) :: pairs => e.spots (some k.last) ++ Expr.pairSpots pairs

end

/-- All values that are written in a document. -/
def Document.spots (d : Document) : List Spot :=
  Expr.pairSpots d.opening ++ d.sections.flatMap fun s => Expr.pairSpots s.pairs

/-- A spot whose value and whose key are among some marks. -/
def Spot.In (ms : List Mark) (x : Spot) : Prop := x.mark ∈ ms ∧ ∀ k ∈ x.key, .name k ∈ ms

theorem Key.last_mem (k : Key) : k.last ∈ k.parts := by
  obtain ⟨head, tail⟩ := k
  cases tail with
  | nil => exact List.mem_cons_self
  | cons k' ks =>
    rw [Key.last, List.getLastD_cons]
    exact List.mem_cons_of_mem _ List.getLastD_mem_cons

mutual

/-- What is written in a value is among its marks. -/
theorem Expr.spots_in : ∀ {e : Expr} {key : Option KeyPart} {ms : List Mark},
    (∀ k ∈ key, .name k ∈ ms) → e.marks ⊆ ms → ∀ x ∈ e.spots key, x.In ms
  | .scalar l v, key, ms, hkey, hsub, x, hx => by
      obtain rfl := List.mem_singleton.1 hx
      exact ⟨hsub List.mem_cons_self, hkey⟩
  | .array l items, key, ms, hkey, hsub, x, hx => by
      rw [Expr.marks] at hsub
      rcases List.mem_cons.1 hx with rfl | hx
      · exact ⟨hsub (by simp [Spot.mark]), hkey⟩
      · exact Expr.itemSpots_in (fun m hm => hsub (by simp [hm])) x hx
  | .inlineTable l pairs, key, ms, hkey, hsub, x, hx => by
      rw [Expr.marks] at hsub
      rcases List.mem_cons.1 hx with rfl | hx
      · exact ⟨hsub (by simp [Spot.mark]), hkey⟩
      · exact Expr.pairSpots_in (fun m hm => hsub (by simp [hm])) x hx

theorem Expr.itemSpots_in : ∀ {es : List Expr} {ms : List Mark}, Expr.itemMarks es ⊆ ms →
    ∀ x ∈ Expr.itemSpots es, x.In ms
  | [], ms, hsub, x, hx => by cases hx
  | e :: es, ms, hsub, x, hx => by
      obtain ⟨he, hes⟩ := List.append_subset.1 hsub
      rcases List.mem_append.1 hx with hx | hx
      · exact Expr.spots_in (by simp) he x hx
      · exact Expr.itemSpots_in hes x hx

theorem Expr.pairSpots_in : ∀ {ps : List (Key × Expr)} {ms : List Mark}, Expr.pairMarks ps ⊆ ms →
    ∀ x ∈ Expr.pairSpots ps, x.In ms
  | [], ms, hsub, x, hx => by cases hx
  | (k, e) :: ps, ms, hsub, x, hx => by
      have hname : Mark.name k.last ∈ k.marks := List.mem_map_of_mem k.last_mem
      rcases List.mem_append.1 hx with hx | hx
      · refine Expr.spots_in ?_ (fun m hm => hsub (by simp [Expr.pairMarks, hm])) x hx
        rintro p ⟨⟩
        exact hsub (by simp [Expr.pairMarks, hname])
      · exact Expr.pairSpots_in (fun m hm => hsub (by simp [Expr.pairMarks, hm])) x hx

end

/-- What a document has written is among its marks. -/
theorem Document.spots_in {d : Document} {x : Spot} (hx : x ∈ d.spots) : x.In d.marks := by
  rcases List.mem_append.1 hx with hx | hx
  · exact Expr.pairSpots_in (List.subset_append_left _ _) x hx
  · obtain ⟨s, hs, hx⟩ := List.mem_flatMap.1 hx
    refine Expr.pairSpots_in (fun m hm => List.mem_append_right _ ?_) x hx
    exact List.mem_flatMap.2 ⟨s, hs, List.mem_append_right _ hm⟩

/-! ## Spots of a table under construction -/

namespace Node

mutual

/-- The locations in a node: its own, and those of all keys and nodes
inside. -/
def locations : Node → List Location
  | .scalar _ l _ => [l]
  | .array _ l _ items => l :: itemLocations items
  | .table _ l _ entries => l :: entryLocations entries

/-- The locations in some items. -/
def itemLocations : List Node → List Location
  | [] => []
  | n :: ns => n.locations ++ itemLocations ns

/-- The locations of some entries and in them. -/
def entryLocations : List (KeyPart × Node) → List Location
  | [] => []
  | (k, n) :: entries => k.location :: n.locations ++ entryLocations entries

end

mutual

/-- The values in a node that are written as such, each at its own
location. -/
def written (key : Option KeyPart) : Node → List Spot
  | .scalar _ l v => [⟨key, l, .scalar v⟩]
  | .array _ l ofTables items =>
    (if ofTables then [] else [⟨key, l, .array⟩]) ++ itemsWritten items
  | .table _ l kind entries =>
    (if kind = .inlined then [⟨key, l, .table⟩] else []) ++ entriesWritten entries

/-- The values in some items that are written as such. -/
def itemsWritten : List Node → List Spot
  | [] => []
  | n :: ns => n.written none ++ itemsWritten ns

/-- The values in some entries that are written as such. -/
def entriesWritten : List (KeyPart × Node) → List Spot
  | [] => []
  | (k, n) :: entries => n.written (some k) ++ entriesWritten entries

end

mutual

/-- The arrays and tables in a node that headers and dots have made, each
at its extent. -/
def made (key : Option KeyPart) : Node → List Spot
  | .scalar _ _ _ => []
  | .array _ l ofTables items =>
    (if ofTables then [⟨key, extentOfItems l items, .array⟩] else []) ++ itemsMade items
  | .table _ l kind entries =>
    (if kind = .inlined then [] else [⟨key, extentOfEntries l entries, .table⟩]) ++
      entriesMade entries

/-- The arrays and tables made in some items. -/
def itemsMade : List Node → List Spot
  | [] => []
  | n :: ns => n.made none ++ itemsMade ns

/-- The arrays and tables made in some entries. -/
def entriesMade : List (KeyPart × Node) → List Spot
  | [] => []
  | (k, n) :: entries => n.made (some k) ++ entriesMade entries

end

mutual

/-- A node and everything in it, each at its extent. -/
def spots (key : Option KeyPart) : Node → List (Address × Spot)
  | .scalar _ l v => [([], ⟨key, l, .scalar v⟩)]
  | .array _ l _ items => ([], ⟨key, extentOfItems l items, .array⟩) :: itemSpots 0 items
  | .table _ l _ entries => ([], ⟨key, extentOfEntries l entries, .table⟩) :: entrySpots entries

/-- Items, counted from `i`, and everything in them. -/
def itemSpots (i : Nat) : List Node → List (Address × Spot)
  | [] => []
  | n :: ns => under [.index i] (n.spots none) ++ itemSpots (i + 1) ns

/-- Entries and everything in them. -/
def entrySpots : List (KeyPart × Node) → List (Address × Spot)
  | [] => []
  | (k, n) :: entries => under [.key k.name] (n.spots (some k)) ++ entrySpots entries

end

mutual

/-- Whether every written array and inline table in a node is located
before all that is inside it. -/
def Solid : Node → Prop
  | .scalar _ _ _ => True
  | .array _ l ofTables items =>
    (ofTables = false → ∀ p ∈ itemLocations items, ¬ p < l) ∧ ItemsSolid items
  | .table _ l kind entries =>
    (kind = .inlined → ∀ p ∈ entryLocations entries, ¬ p < l) ∧ EntriesSolid entries

/-- Whether that is so of some items. -/
def ItemsSolid : List Node → Prop
  | [] => True
  | n :: ns => n.Solid ∧ ItemsSolid ns

/-- Whether that is so of some entries. -/
def EntriesSolid : List (KeyPart × Node) → Prop
  | [] => True
  | (_, n) :: entries => n.Solid ∧ EntriesSolid entries

end

/-! ## Extents -/

mutual

/-- The extent of a node is one of the locations in it. -/
theorem extent_mem : ∀ n : Node, n.extent ∈ n.locations
  | .scalar _ _ _ => List.mem_singleton.2 rfl
  | .array _ l _ items => extentOfItems_mem items l
  | .table _ l _ entries => extentOfEntries_mem entries l

theorem extentOfItems_mem : ∀ (ns : List Node) (l : Location),
    extentOfItems l ns ∈ l :: itemLocations ns
  | [], l => List.mem_singleton.2 rfl
  | n :: ns, l => by
      have hrest := extentOfItems_mem ns (l.earlier n.extent)
      have hfirst := extent_mem n
      rw [extentOfItems, itemLocations]
      rcases List.mem_cons.1 hrest with hrest | hrest
      · rw [hrest]
        rcases l.earlier_eq_or n.extent with h | h
        · simp [h]
        · simp [h, hfirst]
      · simp [hrest]

theorem extentOfEntries_mem : ∀ (es : List (KeyPart × Node)) (l : Location),
    extentOfEntries l es ∈ l :: entryLocations es
  | [], l => List.mem_singleton.2 rfl
  | (k, n) :: es, l => by
      have hrest := extentOfEntries_mem es ((l.earlier k.location).earlier n.extent)
      have hfirst := extent_mem n
      rw [extentOfEntries, entryLocations]
      rcases List.mem_cons.1 hrest with hrest | hrest
      · rw [hrest]
        rcases (l.earlier k.location).earlier_eq_or n.extent with h | h
        · rw [h]
          rcases l.earlier_eq_or k.location with h' | h'
          · simp [h']
          · simp [h']
        · simp [h, hfirst]
      · simp [hrest]

end

/-- Where nothing inside is located before the bracket, it is the
extent. -/
theorem extentOfItems_eq : ∀ {ns : List Node} {l : Location}, (∀ p ∈ itemLocations ns, ¬ p < l) →
    extentOfItems l ns = l
  | [], l, _ => rfl
  | n :: ns, l, h => by
      have hfirst : ¬ n.extent < l := h _ (List.mem_append_left _ (extent_mem n))
      rw [extentOfItems, Location.earlier_eq_left hfirst]
      exact extentOfItems_eq fun p hp => h p (List.mem_append_right _ hp)

theorem extentOfEntries_eq : ∀ {es : List (KeyPart × Node)} {l : Location},
    (∀ p ∈ entryLocations es, ¬ p < l) → extentOfEntries l es = l
  | [], l, _ => rfl
  | (k, n) :: es, l, h => by
      have hkey : ¬ k.location < l := h _ (by simp [entryLocations])
      have hfirst : ¬ n.extent < l := h _ (by simp [entryLocations, extent_mem n])
      rw [extentOfEntries, Location.earlier_eq_left hkey, Location.earlier_eq_left hfirst]
      exact extentOfEntries_eq fun p hp => h p (List.mem_append_right _ hp)

/-! ## Spots of solid nodes -/

theorem map_snd_under {α : Type} (a : Address) (xs : List (Address × α)) :
    (under a xs).map Prod.snd = xs.map Prod.snd := by
  simp [under, Function.comp_def]

theorem perm_append_append {α : Type} {xs ys xs' ys' zs zs' : List α} (h : xs.Perm (ys ++ zs))
    (h' : xs'.Perm (ys' ++ zs')) : (xs ++ xs').Perm ((ys ++ ys') ++ (zs ++ zs')) := by
  refine (h.append h').trans ?_
  simp only [List.append_assoc]
  exact (List.perm_append_comm_assoc _ _ _).append_left _

mutual

/-- The spots of a solid node are those of the values written in it, where
they are written, and those of what was made. -/
theorem Solid.perm : ∀ {n : Node} (key : Option KeyPart), n.Solid →
    ((n.spots key).map Prod.snd).Perm (n.written key ++ n.made key)
  | .scalar _ l v, key, _ => .refl _
  | .array _ l ofTables items, key, h => by
      obtain ⟨hown, hitems⟩ := h
      have hrest := ItemsSolid.perm 0 hitems
      rw [spots, written, made, List.map_cons]
      cases ofTables with
      | true =>
        -- what headers made stands among what is made, after all that is written inside
        exact (hrest.cons _).trans List.perm_middle.symm
      | false =>
        rw [extentOfItems_eq (hown rfl)]
        exact hrest.cons _
  | .table _ l kind entries, key, h => by
      obtain ⟨hown, hentries⟩ := h
      have hrest := EntriesSolid.perm hentries
      rw [spots, written, made, List.map_cons]
      split
      · next hkind =>
        rw [extentOfEntries_eq (hown hkind)]
        exact hrest.cons _
      · exact (hrest.cons _).trans List.perm_middle.symm

theorem ItemsSolid.perm : ∀ {ns : List Node} (i : Nat), ItemsSolid ns →
    ((itemSpots i ns).map Prod.snd).Perm (itemsWritten ns ++ itemsMade ns)
  | [], i, _ => .refl _
  | n :: ns, i, ⟨hn, hns⟩ => by
      rw [itemSpots, List.map_append, map_snd_under]
      exact perm_append_append (Solid.perm none hn) (ItemsSolid.perm (i + 1) hns)

theorem EntriesSolid.perm : ∀ {es : List (KeyPart × Node)}, EntriesSolid es →
    ((entrySpots es).map Prod.snd).Perm (entriesWritten es ++ entriesMade es)
  | [], _ => .refl _
  | (k, n) :: es, ⟨hn, hes⟩ => by
      rw [entrySpots, List.map_append, map_snd_under]
      exact perm_append_append (Solid.perm (some k) hn) (EntriesSolid.perm hes)

end

mutual

/-- What headers and dots make is an array or a table. -/
theorem shape_of_mem_made : ∀ {n : Node} {key : Option KeyPart} {x : Spot}, x ∈ n.made key →
    x.shape = .array ∨ x.shape = .table
  | .scalar _ _ _, key, x, h => by cases h
  | .array _ l ofTables items, key, x, h => by
      rcases List.mem_append.1 h with h | h
      · split at h
        · exact .inl (by rw [List.mem_singleton.1 h])
        · cases h
      · exact shape_of_mem_itemsMade h
  | .table _ l kind entries, key, x, h => by
      rcases List.mem_append.1 h with h | h
      · split at h
        · cases h
        · exact .inr (by rw [List.mem_singleton.1 h])
      · exact shape_of_mem_entriesMade h

theorem shape_of_mem_itemsMade : ∀ {ns : List Node} {x : Spot}, x ∈ itemsMade ns →
    x.shape = .array ∨ x.shape = .table
  | [], x, h => by cases h
  | n :: ns, x, h => by
      rcases List.mem_append.1 h with h | h
      · exact shape_of_mem_made h
      · exact shape_of_mem_itemsMade h

theorem shape_of_mem_entriesMade : ∀ {es : List (KeyPart × Node)} {x : Spot}, x ∈ entriesMade es →
    x.shape = .array ∨ x.shape = .table
  | [], x, h => by cases h
  | (k, n) :: es, x, h => by
      rcases List.mem_append.1 h with h | h
      · exact shape_of_mem_made h
      · exact shape_of_mem_entriesMade h

end

end Node

end AuditSettings.Toml
