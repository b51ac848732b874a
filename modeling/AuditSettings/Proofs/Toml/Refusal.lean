/-
AuditSettings.Proofs.Toml.Refusal — where a clash of two keys is put.

A document whose tables do not fit is refused for two of its keys: for the
first clash that its tables record, or for two entries of one address that
meet when its tree is made and are not both tables. Both keys are written
in the text, and one of them is the later. A key that is given again is
put there; a header that leads through something that is no table, or no
array of tables, is put at the start of the text, where the later key never
stands.
-/
import AuditSettings.Proofs.Toml.Merging
import AuditSettings.Proofs.Toml.Recording

namespace AuditSettings.Toml

open AuditSettings.Text

/-! ## Keys of values -/

mutual

/-- The keys in a value, each at the address that it gives. -/
def Value.keySites : Value → List (Address × KeyPart)
  | .scalar _ _ => []
  | .array _ items => Value.itemKeySites 0 items
  | .table _ entries => Value.entryKeySites entries

/-- The keys in some items, counted from `i`. -/
def Value.itemKeySites (i : Nat) : List Value → List (Address × KeyPart)
  | [] => []
  | v :: vs => under [.index i] v.keySites ++ Value.itemKeySites (i + 1) vs

/-- The keys of some entries and in them. -/
def Value.entryKeySites : List (KeyPart × Value) → List (Address × KeyPart)
  | [] => []
  | (k, v) :: entries =>
    ([.key k.name], k) :: under [.key k.name] v.keySites ++ Value.entryKeySites entries

end

namespace Value

theorem entryKeySites_append (es fs : List (KeyPart × Value)) :
    entryKeySites (es ++ fs) = entryKeySites es ++ entryKeySites fs := by
  induction es with
  | nil => rfl
  | cons e es ih => simp [entryKeySites, ih]

theorem entryKeySites_cons (e : KeyPart × Value) (es : List (KeyPart × Value)) :
    entryKeySites (e :: es) = entryKeySites [e] ++ entryKeySites es := by
  simp [entryKeySites]

/-- A key in some entries is that of an entry or is in one. -/
theorem mem_entryKeySites {es : List (KeyPart × Value)} {x : Address × KeyPart} :
    x ∈ entryKeySites es ↔ ∃ e ∈ es, x ∈ entryKeySites [e] := by
  induction es with
  | nil => simp [entryKeySites]
  | cons e es ih =>
    rw [entryKeySites_cons, List.mem_append, ih]
    simp

/-- The key of an entry, and the keys in it, are among those of all
entries. -/
theorem key_mem_entryKeySites {es : List (KeyPart × Value)} {k : KeyPart} {v : Value}
    (h : (k, v) ∈ es) : ([.key k.name], k) ∈ entryKeySites es :=
  mem_entryKeySites.2 ⟨_, h, List.mem_cons_self⟩

theorem under_subset_entryKeySites {es : List (KeyPart × Value)} {k : KeyPart} {v : Value}
    (h : (k, v) ∈ es) : under [.key k.name] v.keySites ⊆ entryKeySites es := by
  intro x hx
  refine mem_entryKeySites.2 ⟨_, h, ?_⟩
  rw [entryKeySites]
  exact List.mem_append_left _ (List.mem_cons_of_mem _ hx)

/-- A key of an entry or in it is at an address that begins with its
name. -/
theorem exists_of_mem_entryKeySites {k : KeyPart} {v : Value} {a : Address} {p : KeyPart}
    (h : (a, p) ∈ entryKeySites [(k, v)]) : ∃ c, a = .key k.name :: c := by
  simp only [entryKeySites, List.cons_append, List.mem_cons, Prod.mk.injEq, List.append_nil,
    mem_under] at h
  rcases h with ⟨rfl, -⟩ | ⟨c, rfl, -⟩
  · exact ⟨[], rfl⟩
  · exact ⟨c, rfl⟩

end Value

/-! ## Entries that meet -/

/-- A document is refused for two keys of one address, and put at the later
one. -/
def Duplicate (xs : List (Address × KeyPart)) (e : SyntaxError) : Prop :=
  ∃ a old new, (a, old) ∈ xs ∧ (a, new) ∈ xs ∧ old.location < new.location ∧
    e = ⟨.duplicateKey new.name, new.location⟩

theorem Duplicate.mono {xs ys : List (Address × KeyPart)} {e : SyntaxError} (h : Duplicate xs e)
    (hsub : xs ⊆ ys) : Duplicate ys e := by
  obtain ⟨a, old, new, hold, hnew, hlt, he⟩ := h
  exact ⟨a, old, new, hsub hold, hsub hnew, hlt, he⟩

theorem Duplicate.under {xs : List (Address × KeyPart)} {e : SyntaxError} (h : Duplicate xs e)
    (b : Address) : Duplicate (Toml.under b xs) e := by
  obtain ⟨a, old, new, hold, hnew, hlt, he⟩ := h
  exact ⟨b ++ a, old, new, append_mem_under.2 hold, append_mem_under.2 hnew, hlt, he⟩

/-- An entry that meets one of its name and may not. -/
theorem duplicate_of_name {done : List (KeyPart × Value)} {k k₀ : KeyPart} {v v₀ : Value}
    (hmem : (k₀, v₀) ∈ done) (hname : k₀.name = k.name)
    (horder : Precedes (Value.entryKeySites done) (Value.entryKeySites [(k, v)])) :
    Duplicate (Value.entryKeySites done ++ Value.entryKeySites [(k, v)])
      ⟨.duplicateKey k.name, k.location⟩ := by
  have hold := Value.key_mem_entryKeySites hmem
  have hnew := Value.key_mem_entryKeySites (List.mem_singleton_self (k, v))
  rw [hname] at hold
  exact ⟨_, k₀, k, List.mem_append_left _ hold, List.mem_append_right _ hnew,
    horder _ _ _ hold hnew, rfl⟩

mutual

/-- An entry that was added brought its keys. -/
theorem insertEntry_subset {v : Value} {done result : List (KeyPart × Value)} {k : KeyPart}
    (h : insertEntry done k v = .ok result) :
    Value.entryKeySites result ⊆ Value.entryKeySites done ++ Value.entryKeySites [(k, v)] := by
  rcases insertEntry_eq_ok h with ⟨-, rfl⟩ | ⟨before, k₀, l', existing, after, l, incoming,
    merged, rfl, -, hname, rfl, hins, rfl⟩
  · rw [Value.entryKeySites_append]
    exact List.Subset.refl _
  · have hmerged := insertEntries_subset hins
    rintro ⟨a, p⟩ hx
    simp only [Value.entryKeySites_append, Value.entryKeySites, Value.keySites, hname,
      List.cons_append, List.mem_append, List.mem_cons, List.append_nil] at hx ⊢
    rcases hx with hx | hx | hx | hx
    · exact .inl (.inl hx)
    · exact .inl (.inr (.inl hx))
    · obtain ⟨c, rfl, hc⟩ := mem_under.1 hx
      rcases List.mem_append.1 (hmerged hc) with hc | hc
      · exact .inl (.inr (.inr (.inl (append_mem_under.2 hc))))
      · exact .inr (.inr (append_mem_under.2 hc))
    · exact .inl (.inr (.inr (.inr hx)))
termination_by sizeOf v

theorem insertEntries_subset : ∀ {incoming done result : List (KeyPart × Value)},
    insertEntries done incoming = .ok result →
    Value.entryKeySites result ⊆ Value.entryKeySites done ++ Value.entryKeySites incoming
  | [], done, result, h => by
      cases h
      exact List.subset_append_left _ _
  | (k, v) :: rest, done, result, h => by
      rw [insertEntries] at h
      split at h
      · next mid hmid =>
        have hrest := insertEntries_subset h
        have hfirst := insertEntry_subset hmid
        rw [Value.entryKeySites_cons, ← List.append_assoc]
        exact List.Subset.trans hrest (append_subset_append hfirst (List.Subset.refl _))
      · cases h
termination_by incoming => sizeOf incoming

end

theorem precedes_append_right {xs ys zs : List (Address × KeyPart)} :
    Precedes xs (ys ++ zs) ↔ Precedes xs ys ∧ Precedes xs zs := by
  constructor
  · intro h
    exact ⟨fun a p q hp hq => h a p q hp (List.mem_append_left _ hq),
      fun a p q hp hq => h a p q hp (List.mem_append_right _ hq)⟩
  · rintro ⟨hy, hz⟩ a p q hp hq
    rcases List.mem_append.1 hq with hq | hq
    · exact hy a p q hp hq
    · exact hz a p q hp hq

/-- What comes in next still comes later once an entry of another name was
added. -/
theorem Precedes.of_insertEntry {done mid rest : List (KeyPart × Value)} {k : KeyPart} {v : Value}
    (h : Precedes (Value.entryKeySites done) (Value.entryKeySites rest))
    (hmid : insertEntry done k v = .ok mid) (hk : k.name ∉ rest.map fun e => e.1.name) :
    Precedes (Value.entryKeySites mid) (Value.entryKeySites rest) := by
  intro a p q hp hq
  rcases List.mem_append.1 (insertEntry_subset hmid hp) with hp | hp
  · exact h a p q hp hq
  · obtain ⟨c, rfl⟩ := Value.exists_of_mem_entryKeySites hp
    obtain ⟨⟨k', v'⟩, hmem', hq'⟩ := Value.mem_entryKeySites.1 hq
    obtain ⟨c', hc'⟩ := Value.exists_of_mem_entryKeySites hq'
    simp only [List.cons.injEq, Step.key.injEq] at hc'
    exact absurd (List.mem_map.2 ⟨_, hmem', hc'.1.symm⟩) hk

mutual

/-- An entry that cannot be added has a key that is given again. -/
theorem insertEntry_error {v : Value} {done : List (KeyPart × Value)} {k : KeyPart}
    {e : SyntaxError} (h : insertEntry done k v = .error e) (hv : v.Distinct)
    (horder : Precedes (Value.entryKeySites done) (Value.entryKeySites [(k, v)])) :
    Duplicate (Value.entryKeySites done ++ Value.entryKeySites [(k, v)]) e := by
  rcases insertEntry_eq_error h with ⟨⟨k₀, v₀⟩, hfind, -, rfl⟩ | ⟨k₀, l', existing, l, incoming,
    hfind, rfl, hins⟩
  · exact duplicate_of_name (List.mem_of_find?_eq_some hfind)
      (by simpa using List.find?_some hfind) horder
  · have hname : k₀.name = k.name := by simpa using List.find?_some hfind
    have hold : under [.key k₀.name] (Value.entryKeySites existing) ⊆ Value.entryKeySites done :=
      Value.under_subset_entryKeySites (List.mem_of_find?_eq_some hfind)
    have hnew : under [.key k.name] (Value.entryKeySites incoming) ⊆
        Value.entryKeySites [(k, .table l incoming)] :=
      Value.under_subset_entryKeySites (List.mem_singleton_self (k, Value.table l incoming))
    rw [hname] at hold
    have hinside := insertEntries_error hins hv fun a p q hp hq =>
      horder ([.key k.name] ++ a) p q (hold (append_mem_under.2 hp)) (hnew (append_mem_under.2 hq))
    refine (hinside.under [.key k.name]).mono ?_
    rw [under_append]
    exact append_subset_append hold hnew
termination_by sizeOf v

theorem insertEntries_error : ∀ {incoming done : List (KeyPart × Value)} {e : SyntaxError},
    insertEntries done incoming = .error e → Value.EntriesDistinct incoming →
    Precedes (Value.entryKeySites done) (Value.entryKeySites incoming) →
    Duplicate (Value.entryKeySites done ++ Value.entryKeySites incoming) e
  | [], done, e, h, _, _ => by cases h
  | (k, v) :: rest, done, e, h, hdistinct, horder => by
      obtain ⟨hk, hv, hrest⟩ := hdistinct
      rw [Value.entryKeySites_cons] at horder ⊢
      obtain ⟨hfirst, hlater⟩ := precedes_append_right.1 horder
      rw [← List.append_assoc]
      rw [insertEntries] at h
      split at h
      · next mid hmid =>
        have hmem := insertEntry_subset hmid
        have hnext := hlater.of_insertEntry hmid hk
        exact (insertEntries_error h hrest hnext).mono
          (append_subset_append hmem (List.Subset.refl _))
      · next e' hmid =>
        cases h
        exact (insertEntry_error hmid hv hfirst).mono (List.subset_append_left _ _)
termination_by incoming => sizeOf incoming

end

/-! ## Tables that meet when a tree is made -/

theorem Node.entryKeySites_cons (e : KeyPart × Node) (es : List (KeyPart × Node)) :
    entryKeySites (e :: es) = entryKeySites [e] ++ entryKeySites es := by
  simp [entryKeySites]

/-- The keys in an entry are in order when those of the entry are. -/
theorem Node.ordered_of_entry {k : KeyPart} {n : Node} (h : Ordered (entryKeySites [(k, n)])) :
    Ordered n.keySites := by
  rw [entryKeySites, entryKeySites, List.append_nil] at h
  exact ordered_under.1 (List.pairwise_cons.1 h).2

/-- The keys of an entry come with those of its node. -/
theorem entryKeySites_subset {k : KeyPart} {v : Value} {n : Node} (h : v.keySites ⊆ n.keySites) :
    Value.entryKeySites [(k, v)] ⊆ Node.entryKeySites [(k, n)] := by
  rintro ⟨a, p⟩ hx
  simp only [Value.entryKeySites, Node.entryKeySites, List.append_nil, List.mem_cons] at hx ⊢
  rcases hx with hx | hx
  · exact .inl hx
  · obtain ⟨c, rfl, hc⟩ := mem_under.1 hx
    exact .inr (append_mem_under.2 (h hc))

mutual

/-- The tree of a node has no other keys. -/
theorem Node.value_subset : ∀ {n : Node} {v : Value}, n.value = .ok v → v.keySites ⊆ n.keySites
  | .scalar faults l s, v, h => by
      cases h
      exact List.Subset.refl _
  | .array faults l ofTables items, v, h => by
      rw [Node.value] at h
      obtain ⟨vs, hvs, rfl⟩ := exists_of_map_eq_ok h
      exact Node.values_subset hvs 0
  | .table faults l kind entries, v, h => by
      rw [Node.value] at h
      obtain ⟨es, hes, rfl⟩ := exists_of_map_eq_ok h
      exact Node.addEntries_subset hes

theorem Node.values_subset : ∀ {ns : List Node} {vs : List Value}, Node.values ns = .ok vs →
    ∀ i, Value.itemKeySites i vs ⊆ Node.itemKeySites i ns
  | [], vs, h, i => by
      cases h
      exact List.Subset.refl _
  | n :: ns, vs, h, i => by
      rw [Node.values] at h
      split at h
      · next v hv =>
        obtain ⟨us, hvs, rfl⟩ := exists_of_map_eq_ok h
        have hfirst := Node.value_subset hv
        have hrest := Node.values_subset hvs (i + 1)
        rintro ⟨a, p⟩ hx
        rw [Value.itemKeySites, List.mem_append] at hx
        rw [Node.itemKeySites, List.mem_append]
        rcases hx with hx | hx
        · obtain ⟨c, rfl, hc⟩ := mem_under.1 hx
          exact .inl (append_mem_under.2 (hfirst hc))
        · exact .inr (hrest hx)
      · cases h

theorem Node.addEntries_subset : ∀ {es : List (KeyPart × Node)}
    {done result : List (KeyPart × Value)}, Node.addEntries done es = .ok result →
    Value.entryKeySites result ⊆ Value.entryKeySites done ++ Node.entryKeySites es
  | [], done, result, h => by
      cases h
      exact List.subset_append_left _ _
  | (k, n) :: es, done, result, h => by
      rw [Node.addEntries] at h
      split at h
      · cases h
      · next v hv =>
        split at h
        · next mid hmid =>
          have hfirst := insertEntry_subset hmid
          have hentry := entryKeySites_subset (k := k) (Node.value_subset hv)
          have hrest := Node.addEntries_subset h
          rw [Node.entryKeySites_cons, ← List.append_assoc]
          have hadded := List.Subset.trans hfirst
            (append_subset_append (List.Subset.refl _) hentry)
          exact List.Subset.trans hrest (append_subset_append hadded (List.Subset.refl _))
        · cases h

end

mutual

/-- A node that has no tree has a key that is given again. -/
theorem Node.value_error : ∀ {n : Node} {e : SyntaxError}, n.value = .error e →
    Ordered n.keySites → Duplicate n.keySites e
  | .scalar faults l s, e, h, _ => by cases h
  | .array faults l ofTables items, e, h, horder => by
      rw [Node.value] at h
      have hvs := eq_of_map_eq_error h
      exact Node.values_error hvs 0 horder
  | .table faults l kind entries, e, h, horder => by
      rw [Node.value] at h
      have hes := eq_of_map_eq_error h
      exact Node.addEntries_error [] hes (List.Subset.refl _) horder

theorem Node.values_error : ∀ {ns : List Node} {e : SyntaxError}, Node.values ns = .error e →
    ∀ i, Ordered (Node.itemKeySites i ns) → Duplicate (Node.itemKeySites i ns) e
  | [], e, h, i, _ => by cases h
  | n :: ns, e, h, i, horder => by
      rw [Node.itemKeySites] at horder ⊢
      obtain ⟨hfirst, hrest, -⟩ := ordered_append.1 horder
      rw [Node.values] at h
      split at h
      · next v hv =>
        have hvs := eq_of_map_eq_error h
        exact (Node.values_error hvs (i + 1) hrest).mono (List.subset_append_right _ _)
      · next e' hv =>
        cases h
        have := Node.value_error hv (ordered_under.1 hfirst)
        exact (this.under [.index i]).mono (List.subset_append_left _ _)

/-- The entries added so far have their keys from `prior`. -/
theorem Node.addEntries_error : ∀ {es : List (KeyPart × Node)} {done : List (KeyPart × Value)}
    (prior : List (Address × KeyPart)) {e : SyntaxError}, Node.addEntries done es = .error e →
    Value.entryKeySites done ⊆ prior → Ordered (prior ++ Node.entryKeySites es) →
    Duplicate (prior ++ Node.entryKeySites es) e
  | [], done, prior, e, h, _, _ => by cases h
  | (k, n) :: es, done, prior, e, h, hdone, horder => by
      rw [Node.entryKeySites_cons, ← List.append_assoc] at horder ⊢
      obtain ⟨hfirst, -, -⟩ := ordered_append.1 horder
      obtain ⟨-, hentry, hcross⟩ := ordered_append.1 hfirst
      rw [Node.addEntries] at h
      split at h
      · next e' hv =>
        cases h
        have herror := Node.value_error hv (Node.ordered_of_entry hentry)
        refine (herror.under [.key k.name]).mono fun x hx => ?_
        refine List.mem_append_left _ (List.mem_append_right _ ?_)
        rw [Node.entryKeySites]
        exact List.mem_append_left _ (List.mem_cons_of_mem _ hx)
      · next v hv =>
        have hsub := entryKeySites_subset (k := k) (Node.value_subset hv)
        split at h
        · next mid hmid =>
          have hmore := List.Subset.trans (insertEntry_subset hmid) (append_subset_append hdone hsub)
          exact Node.addEntries_error _ h hmore horder
        · next e' hmid =>
          cases h
          have hdup := insertEntry_error hmid (Node.value_merged hv).1 fun a p q hp hq =>
            hcross a p q (hdone hp) (hsub hq)
          exact hdup.mono (List.subset_append_of_subset_left _ (append_subset_append hdone hsub))

end

/-! ## Documents that are refused -/

mutual

/-- The address that a key gives ends in its name. -/
theorem Node.exists_of_mem_keySites : ∀ {n : Node} {a : Address} {p : KeyPart},
    (a, p) ∈ n.keySites → ∃ b, a = b ++ [Step.key p.name]
  | .scalar faults l v, a, p, h => by cases h
  | .array faults l ofTables items, a, p, h => Node.exists_of_mem_items (i := 0) h
  | .table faults l kind entries, a, p, h => Node.exists_of_mem_entries h

theorem Node.exists_of_mem_items : ∀ {ns : List Node} {i : Nat} {a : Address} {p : KeyPart},
    (a, p) ∈ Node.itemKeySites i ns → ∃ b, a = b ++ [Step.key p.name]
  | [], i, a, p, h => by cases h
  | n :: ns, i, a, p, h => by
      rw [Node.itemKeySites, List.mem_append] at h
      rcases h with h | h
      · obtain ⟨c, rfl, hc⟩ := mem_under.1 h
        obtain ⟨b, rfl⟩ := Node.exists_of_mem_keySites hc
        exact ⟨.index i :: b, rfl⟩
      · exact Node.exists_of_mem_items h

theorem Node.exists_of_mem_entries : ∀ {es : List (KeyPart × Node)} {a : Address} {p : KeyPart},
    (a, p) ∈ Node.entryKeySites es → ∃ b, a = b ++ [Step.key p.name]
  | [], a, p, h => by cases h
  | (k, n) :: es, a, p, h => by
      rw [Node.entryKeySites, List.cons_append, List.mem_cons, List.mem_append] at h
      rcases h with h | h | h
      · cases h
        exact ⟨[], rfl⟩
      · obtain ⟨c, rfl, hc⟩ := mem_under.1 h
        obtain ⟨b, rfl⟩ := Node.exists_of_mem_keySites hc
        exact ⟨.key k.name :: b, rfl⟩
      · exact Node.exists_of_mem_entries h

end

namespace Document

/-- The two keys that a document is refused for: those of the first clash
that its tables record, or, when they record none, two of one address in
them. -/
inductive Refused (d : Document) (old new : KeyPart) : SyntaxError → Prop where
  | recorded (kind : ClashKind) (h : d.contents.firstFault = some ⟨kind, new, old⟩) :
    Refused d old new (Clash.error ⟨kind, new, old⟩)
  | merged (a : Address) (h : d.contents.firstFault = none)
    (hold : (a, old) ∈ d.contents.keySites) (hnew : (a, new) ∈ d.contents.keySites) :
    Refused d old new ⟨.duplicateKey new.name, new.location⟩

/-- A document that has no tree is refused for two of its names, which are
one name written twice. -/
theorem exists_refused {d : Document} {e : SyntaxError} (hinc : Increasing (namesIn d.marks))
    (h : d.table = .error e) :
    ∃ old new, d.Refused old new e ∧ old ∈ namesIn d.marks ∧ new ∈ namesIn d.marks ∧
      old.name = new.name ∧ old.location < new.location := by
  have hkept := kept hinc
  rw [table] at h
  split at h
  · next c hc =>
    cases h
    have hread := hkept.clash c (Contents.firstFault_mem hc)
    exact ⟨c.old, c.key, .recorded c.kind hc, hread.old_mem, hread.key_mem, hread.name_eq, hread.lt⟩
  · next hnone =>
    rw [Contents.table] at h
    have hes := eq_of_map_eq_error h
    obtain ⟨a, old, new, hold, hnew, hlt, rfl⟩ :=
      Node.addEntries_error [] hes (List.Subset.refl _) hkept.inSequence.ordered
    refine ⟨old, new, .merged a hnone hold hnew, hkept.mem _ hold, hkept.mem _ hnew, ?_, hlt⟩
    obtain ⟨b, hb⟩ := Node.exists_of_mem_entries hold
    obtain ⟨c, hc⟩ := Node.exists_of_mem_entries hnew
    have hlast := (List.append_inj' (hb.symm.trans hc) rfl).2
    simpa using hlast

/-- A refused document is put at the later of its two keys when a key is
given again, and only then. -/
theorem Refused.location_iff {d : Document} {old new : KeyPart} {e : SyntaxError}
    (h : d.Refused old new e) (hlt : old.location < new.location)
    (hold : ¬ old.location < .origin) :
    e.location = new.location ↔ e.cause = .conflictingKeys ∨ e.cause = .duplicateKey new.name := by
  have hne : Location.origin ≠ new.location := by
    intro heq
    rw [← heq] at hlt
    exact hold hlt
  cases h with
  | merged a h hold hnew => simp
  | recorded kind h =>
    cases kind with
    | conflictingKeys =>
      have hnot : ¬ new.location < old.location := Location.not_lt_of_lt hlt
      simp [Clash.error, ClashKind.cause, Location.later, hnot]
    | tableExpected => simp [Clash.error, ClashKind.cause, hne]
    | arrayOfTablesExpected => simp [Clash.error, ClashKind.cause, hne]

end Document

end AuditSettings.Toml
