/-
AuditSettings.Proofs.Toml.Merging — the sites of a tree and of the table
it is made from.

A tree is made from a table under construction by adding its entries one
by one, and where a name stands twice two tables become one. Nothing else
may stand twice. So a tree that is made at all has the very sites of the
table it is made from, each of them once; and in that table two sites with
one address are both tables (`Mergeable`), for anything else would have
been refused.
-/
import AuditSettings.Proofs.Outcome
import AuditSettings.Proofs.Toml.Sites

namespace AuditSettings.Toml

open AuditSettings.Text

/-! ## Sites that may meet -/

/-- Where two lists of sites share an address, both have a table there. -/
def MayMeet (xs ys : List Site) : Prop :=
  ∀ a σ τ, (a, σ) ∈ xs → (a, τ) ∈ ys → σ = .table ∧ τ = .table

/-- Where an address stands twice, it is that of a table both times. -/
def Mergeable (xs : List Site) : Prop :=
  xs.Pairwise fun x y => x.1 = y.1 → x.2 = .table ∧ y.2 = .table

theorem mergeable_append {xs ys : List Site} :
    Mergeable (xs ++ ys) ↔ Mergeable xs ∧ Mergeable ys ∧ MayMeet xs ys := by
  rw [Mergeable, List.pairwise_append]
  refine and_congr Iff.rfl (and_congr Iff.rfl ⟨?_, ?_⟩)
  · intro h a σ τ hx hy
    exact h (a, σ) hx (a, τ) hy rfl
  · rintro h ⟨a, σ⟩ hx ⟨b, τ⟩ hy rfl
    exact h a σ τ hx hy

theorem mergeable_under {a : Address} {xs : List Site} : Mergeable (under a xs) ↔ Mergeable xs := by
  simp [Mergeable, under, List.pairwise_map]

theorem Mergeable.of_perm {xs ys : List Site} (h : Mergeable xs) (hp : xs.Perm ys) :
    Mergeable ys :=
  (hp.pairwise_iff fun hxy heq => (hxy heq.symm).symm).1 h

theorem Mergeable.of_subperm {xs ys : List Site} (h : Mergeable ys) (hs : xs.Subperm ys) :
    Mergeable xs := by
  obtain ⟨zs, hperm, hsub⟩ := hs
  exact Mergeable.of_perm (h.sublist hsub) hperm

/-- The site in front meets nothing when all others have longer
addresses. -/
theorem mergeable_cons_root {σ : Shape} {xs : List Site} (hxs : ∀ τ, ([], τ) ∉ xs)
    (h : Mergeable xs) : Mergeable (([], σ) :: xs) := by
  refine List.pairwise_cons.2 ⟨?_, h⟩
  rintro ⟨a, τ⟩ hx rfl
  exact absurd hx (hxs τ)

/-! ## Sites of values -/

namespace Value

mutual

/-- Whether no table in a value has a name twice. -/
def Distinct : Value → Prop
  | scalar _ _ => True
  | array _ items => ItemsDistinct items
  | table _ entries => EntriesDistinct entries

/-- Whether no table in some items has a name twice. -/
def ItemsDistinct : List Value → Prop
  | [] => True
  | v :: vs => v.Distinct ∧ ItemsDistinct vs

/-- Whether some entries have different names, and no table in them has a
name twice. -/
def EntriesDistinct : List (KeyPart × Value) → Prop
  | [] => True
  | (k, v) :: entries =>
    k.name ∉ entries.map (fun e => e.1.name) ∧ v.Distinct ∧ EntriesDistinct entries

end

theorem entriesDistinct_append {es fs : List (KeyPart × Value)} :
    EntriesDistinct (es ++ fs) ↔ EntriesDistinct es ∧ EntriesDistinct fs ∧
      ∀ e ∈ es, ∀ f ∈ fs, e.1.name ≠ f.1.name := by
  induction es with
  | nil => simp [EntriesDistinct]
  | cons e es ih =>
    simp only [List.cons_append, EntriesDistinct, ih, List.map_append, List.mem_append,
      List.mem_map, not_or, not_exists, not_and, List.mem_cons, forall_eq_or_imp]
    constructor
    · rintro ⟨⟨hes, hfs⟩, hv, h₁, h₂, h₃⟩
      exact ⟨⟨hes, hv, h₁⟩, h₂, fun f hf heq => hfs f hf heq.symm, h₃⟩
    · rintro ⟨⟨hes, hv, h₁⟩, h₂, hfs, h₃⟩
      exact ⟨⟨hes, fun f hf heq => hfs f hf heq.symm⟩, hv, h₁, h₂, h₃⟩

theorem entrySites_append (es fs : List (KeyPart × Value)) :
    entrySites (es ++ fs) = entrySites es ++ entrySites fs := by
  induction es with
  | nil => rfl
  | cons e es ih => simp [entrySites, ih]

theorem mem_entrySites {es : List (KeyPart × Value)} {a : Address} {σ : Shape} :
    (a, σ) ∈ entrySites es ↔ ∃ e ∈ es, ∃ c, a = .key e.1.name :: c ∧ (c, σ) ∈ e.2.sites := by
  induction es with
  | nil => simp [entrySites]
  | cons e es ih => simp [entrySites, mem_under, ih]

theorem root_not_mem_entrySites (es : List (KeyPart × Value)) (σ : Shape) :
    ([], σ) ∉ entrySites es := by
  simp [mem_entrySites]

theorem exists_of_mem_itemSites {i : Nat} {vs : List Value} {a : Address} {σ : Shape}
    (h : (a, σ) ∈ itemSites i vs) : ∃ j c, a = .index j :: c ∧ i ≤ j := by
  induction vs generalizing i with
  | nil => simp [itemSites] at h
  | cons v vs ih =>
    simp only [itemSites, List.mem_append, mem_under] at h
    rcases h with ⟨c, rfl, -⟩ | h
    · exact ⟨i, c, rfl, Nat.le_refl i⟩
    · obtain ⟨j, c, rfl, hlo⟩ := ih h
      exact ⟨j, c, rfl, by omega⟩

end Value

/-- Sites below different first steps have different addresses. -/
theorem nodup_map_fst_append {xs ys : List Site} (hx : (xs.map Prod.fst).Nodup)
    (hy : (ys.map Prod.fst).Nodup) (h : ∀ a σ τ, (a, σ) ∈ xs → (a, τ) ∉ ys) :
    ((xs ++ ys).map Prod.fst).Nodup := by
  rw [List.map_append, List.nodup_append]
  refine ⟨hx, hy, ?_⟩
  intro a ha b hb hab
  subst hab
  obtain ⟨⟨a', σ⟩, hσ, rfl⟩ := List.mem_map.1 ha
  obtain ⟨⟨b', τ⟩, hτ, heq⟩ := List.mem_map.1 hb
  obtain rfl : b' = a' := heq
  exact h b' σ τ hσ hτ

theorem nodup_map_fst_under {a : Address} {xs : List Site} (h : (xs.map Prod.fst).Nodup) :
    ((under a xs).map Prod.fst).Nodup := by
  have hmap : (under a xs).map Prod.fst = (xs.map Prod.fst).map (a ++ ·) := by
    simp [under, Function.comp_def]
  rw [hmap]
  exact h.map (List.append_right_injective a)

mutual

/-- Where no name stands twice, no address does. -/
theorem Value.nodup_sites : ∀ {v : Value}, v.Distinct → (v.sites.map Prod.fst).Nodup
  | .scalar _ _, _ => by simp [Value.sites]
  | .array _ items, h => by
      have hitems := Value.nodup_itemSites (i := 0) (show Value.ItemsDistinct items from h)
      refine List.nodup_cons.2 ⟨?_, hitems⟩
      intro hmem
      obtain ⟨⟨a, σ⟩, hσ, rfl⟩ := List.mem_map.1 hmem
      obtain ⟨j, c, hc, -⟩ := Value.exists_of_mem_itemSites hσ
      cases hc
  | .table _ entries, h => by
      have hentries := Value.nodup_entrySites (show Value.EntriesDistinct entries from h)
      refine List.nodup_cons.2 ⟨?_, hentries⟩
      intro hmem
      obtain ⟨⟨a, σ⟩, hσ, rfl⟩ := List.mem_map.1 hmem
      exact Value.root_not_mem_entrySites entries σ hσ

theorem Value.nodup_itemSites : ∀ {i : Nat} {vs : List Value}, Value.ItemsDistinct vs →
    ((Value.itemSites i vs).map Prod.fst).Nodup
  | _, [], _ => by simp [Value.itemSites]
  | i, v :: vs, h => by
      obtain ⟨hv, hvs⟩ := h
      refine nodup_map_fst_append (nodup_map_fst_under (Value.nodup_sites hv))
        (Value.nodup_itemSites hvs) ?_
      intro a σ τ ha hb
      obtain ⟨c, rfl, -⟩ := mem_under.1 ha
      obtain ⟨j, d, hd, hj⟩ := Value.exists_of_mem_itemSites hb
      cases hd
      omega

theorem Value.nodup_entrySites : ∀ {es : List (KeyPart × Value)}, Value.EntriesDistinct es →
    ((Value.entrySites es).map Prod.fst).Nodup
  | [], _ => by simp [Value.entrySites]
  | (k, v) :: es, h => by
      obtain ⟨hk, hv, hes⟩ := h
      refine nodup_map_fst_append (nodup_map_fst_under (Value.nodup_sites hv))
        (Value.nodup_entrySites hes) ?_
      intro a σ τ ha hb
      obtain ⟨c, rfl, -⟩ := mem_under.1 ha
      obtain ⟨e, he, d, hd, -⟩ := Value.mem_entrySites.1 hb
      simp only [List.singleton_append, List.cons.injEq, Step.key.injEq] at hd
      exact hk (List.mem_map.2 ⟨e, he, hd.1.symm⟩)

end

/-! ## Adding an entry to a tree -/

theorem replaceFirst_append {key : String} {before after : List (KeyPart × Value)} {k : KeyPart}
    {old new : Value} (hb : ∀ e ∈ before, e.1.name ≠ key) (hk : k.name = key) :
    replaceFirst key new (before ++ (k, old) :: after) = before ++ (k, new) :: after := by
  induction before with
  | nil => simp [replaceFirst, hk]
  | cons e before ih =>
    have he := hb e List.mem_cons_self
    simp [replaceFirst, he, ih fun x hx => hb x (List.mem_cons_of_mem _ hx)]

/-- An entry that is added stands at the end, if there was none of its name,
or is a table that gave its entries to the table of its name. -/
theorem insertEntry_eq_ok {es gs : List (KeyPart × Value)} {k : KeyPart} {v : Value}
    (h : insertEntry es k v = .ok gs) :
    ((∀ f ∈ es, f.1.name ≠ k.name) ∧ gs = es ++ [(k, v)]) ∨
      ∃ before k₀ l₀ existing after l incoming merged,
        es = before ++ (k₀, .table l₀ existing) :: after ∧
        (∀ f ∈ before, f.1.name ≠ k.name) ∧ k₀.name = k.name ∧ v = .table l incoming ∧
        insertEntries existing incoming = .ok merged ∧
        gs = before ++ (k₀, .table l₀ merged) :: after := by
  cases v with
  | scalar l s =>
    rw [insertEntry] at h
    split at h
    · cases h
    · next hnew => exact .inl ⟨by simpa using hnew, (Except.ok.inj h).symm⟩
  | array l items =>
    rw [insertEntry] at h
    split at h
    · cases h
    · next hnew => exact .inl ⟨by simpa using hnew, (Except.ok.inj h).symm⟩
  | table l incoming =>
    rw [insertEntry] at h
    split at h
    · next hnew => exact .inl ⟨by simpa using hnew, (Except.ok.inj h).symm⟩
    · next k₀ l₀ existing hfind =>
      obtain ⟨hk₀, before, after, rfl, hbefore⟩ := List.find?_eq_some_iff_append.1 hfind
      have hname : k₀.name = k.name := by simpa using hk₀
      have hbefore : ∀ f ∈ before, f.1.name ≠ k.name := by simpa using hbefore
      obtain ⟨merged, hmerged, rfl⟩ := exists_of_map_eq_ok h
      exact .inr ⟨before, k₀, l₀, existing, after, l, incoming, merged, rfl, hbefore, hname, rfl,
        hmerged, replaceFirst_append hbefore hname⟩
    · cases h

/-- An entry that is refused has the name of one that is there, where one of
the two is no table; or is a table of which an entry is refused. -/
theorem insertEntry_eq_error {es : List (KeyPart × Value)} {k : KeyPart} {v : Value}
    {e : SyntaxError} (h : insertEntry es k v = .error e) :
    (∃ f, (Table.mk es).get? k.name = some f ∧ (f.2.table? = none ∨ v.table? = none) ∧
        e = ⟨.duplicateKey k.name, k.location⟩) ∨
      ∃ k₀ l₀ existing l incoming, (Table.mk es).get? k.name = some (k₀, .table l₀ existing) ∧
        v = .table l incoming ∧ insertEntries existing incoming = .error e := by
  -- a value that is no table may not meet anything of its name
  have hplain (hv : v.table? = none) (hany : (es.any fun f => f.1.name == k.name) = true)
      (he : (⟨.duplicateKey k.name, k.location⟩ : SyntaxError) = e) :
      ∃ f, (Table.mk es).get? k.name = some f ∧ (f.2.table? = none ∨ v.table? = none) ∧
        e = ⟨.duplicateKey k.name, k.location⟩ := by
    obtain ⟨f, hf⟩ := Option.isSome_iff_exists.1 (List.find?_isSome.2 (List.any_eq_true.1 hany))
    exact ⟨f, hf, .inr hv, he.symm⟩
  cases v with
  | scalar l s =>
    rw [insertEntry] at h
    split at h
    · next hany => exact .inl (hplain rfl hany (Except.error.inj h))
    · cases h
  | array l items =>
    rw [insertEntry] at h
    split at h
    · next hany => exact .inl (hplain rfl hany (Except.error.inj h))
    · cases h
  | table l incoming =>
    rw [insertEntry] at h
    split at h
    · cases h
    · next k₀ l₀ existing hfind =>
      exact .inr ⟨k₀, l₀, existing, l, incoming, hfind, rfl, eq_of_map_eq_error h⟩
    · next f hnot hfind =>
      obtain ⟨k₀, v₀⟩ := f
      refine .inl ⟨(k₀, v₀), hfind, .inl ?_, (Except.error.inj h).symm⟩
      cases v₀ with
      | scalar l' s => rfl
      | array l' items => rfl
      | table l' entries => exact absurd rfl (hnot k₀ l' entries)

/-- Entries into which some sites have been merged. -/
structure Merged (done : List (KeyPart × Value)) (sites : List Site)
    (result : List (KeyPart × Value)) : Prop where
  distinct : Value.EntriesDistinct result
  mem_iff : ∀ x, x ∈ Value.entrySites result ↔ x ∈ Value.entrySites done ∨ x ∈ sites
  mayMeet : MayMeet (Value.entrySites done) sites

/-- An entry of a new name meets nothing. -/
theorem merged_concat {done : List (KeyPart × Value)} {k : KeyPart} {v : Value}
    (hdone : Value.EntriesDistinct done) (hv : v.Distinct)
    (hnew : ∀ e ∈ done, e.1.name ≠ k.name) :
    Merged done (under [.key k.name] v.sites) (done ++ [(k, v)]) where
  distinct := Value.entriesDistinct_append.2
    ⟨hdone, ⟨by simp, hv, trivial⟩, by simpa using hnew⟩
  mem_iff x := by simp [Value.entrySites_append, Value.entrySites]
  mayMeet := by
    intro a σ τ ha hb
    obtain ⟨e, he, c, rfl, -⟩ := Value.mem_entrySites.1 ha
    obtain ⟨d, hd, -⟩ := mem_under.1 hb
    simp only [List.singleton_append, List.cons.injEq, Step.key.injEq] at hd
    exact absurd hd.1 (hnew e he)

/-- A table that meets a table hands over its sites. -/
theorem merged_table {before after : List (KeyPart × Value)} {k₀ k : KeyPart} {l l' : Location}
    {existing incoming merged : List (KeyPart × Value)} (hk : k₀.name = k.name)
    (hdone : Value.EntriesDistinct (before ++ (k₀, .table l' existing) :: after))
    (hm : Merged existing (Value.entrySites incoming) merged) :
    Merged (before ++ (k₀, .table l' existing) :: after)
      (under [.key k.name] (Value.table l incoming).sites)
      (before ++ (k₀, .table l' merged) :: after) where
  distinct := by
    rw [Value.entriesDistinct_append] at hdone ⊢
    obtain ⟨hbefore, ⟨hk₀, -, hafter⟩, hcross⟩ := hdone
    refine ⟨hbefore, ⟨hk₀, hm.distinct, hafter⟩, ?_⟩
    simpa using hcross
  mem_iff x := by
    have hmerged := mem_under_congr (Value.entrySites existing ++ Value.entrySites incoming)
      (fun y => by rw [hm.mem_iff, List.mem_append]) [.key k.name] x
    simp only [Value.entrySites_append, Value.entrySites, Value.sites, hk, under_cons,
      List.mem_append, List.mem_cons, hmerged, under_append]
    grind
  mayMeet := by
    intro a σ τ ha hb
    obtain ⟨c, rfl, hc⟩ := mem_under.1 hb
    have hc' : (c, σ) ∈ (Value.table l' existing).sites := by
      rw [Value.entriesDistinct_append] at hdone
      obtain ⟨-, ⟨hk₀, -, -⟩, hcross⟩ := hdone
      obtain ⟨e, he, d, hd, hde⟩ := Value.mem_entrySites.1 ha
      simp only [List.singleton_append, List.cons.injEq, Step.key.injEq] at hd
      obtain ⟨hname, rfl⟩ := hd
      rcases List.mem_append.1 he with he | he
      · exact absurd (hname.symm.trans hk.symm) (hcross e he _ List.mem_cons_self)
      · rcases List.mem_cons.1 he with rfl | he
        · exact hde
        · exact absurd (List.mem_map.2 ⟨e, he, hname.symm.trans hk.symm⟩) hk₀
    simp only [Value.sites, List.mem_cons, Prod.mk.injEq] at hc hc'
    rcases hc with ⟨rfl, rfl⟩ | hc
    · rcases hc' with ⟨-, rfl⟩ | hc'
      · exact ⟨rfl, rfl⟩
      · exact absurd hc' (Value.root_not_mem_entrySites existing σ)
    · rcases hc' with ⟨rfl, rfl⟩ | hc'
      · exact absurd hc (Value.root_not_mem_entrySites incoming τ)
      · exact hm.mayMeet c σ τ hc' hc

/-- Merging one list of sites and then another is merging both. -/
theorem Merged.trans {done mid result : List (KeyPart × Value)} {xs ys : List Site}
    (h₁ : Merged done xs mid) (h₂ : Merged mid ys result) : Merged done (xs ++ ys) result where
  distinct := h₂.distinct
  mem_iff x := by rw [h₂.mem_iff, h₁.mem_iff, List.mem_append, or_assoc]
  mayMeet := by
    intro a σ τ ha hb
    rcases List.mem_append.1 hb with hb | hb
    · exact h₁.mayMeet a σ τ ha hb
    · exact h₂.mayMeet a σ τ ((h₁.mem_iff _).2 (.inl ha)) hb

theorem merged_nil {done : List (KeyPart × Value)} (h : Value.EntriesDistinct done) :
    Merged done [] done where
  distinct := h
  mem_iff x := by simp
  mayMeet := by simp [MayMeet]

mutual

/-- An entry that is added is merged. -/
theorem insertEntry_merged {v : Value} {done result : List (KeyPart × Value)} {k : KeyPart}
    (h : insertEntry done k v = .ok result) (hdone : Value.EntriesDistinct done)
    (hv : v.Distinct) : Merged done (under [.key k.name] v.sites) result := by
  rcases insertEntry_eq_ok h with ⟨hnew, rfl⟩ | ⟨before, k₀, l', existing, after, l, incoming,
    merged, rfl, -, hname, rfl, hins, rfl⟩
  · exact merged_concat hdone hv hnew
  · have hexisting := (Value.entriesDistinct_append.1 hdone).2.1.2.1
    exact merged_table hname hdone (insertEntries_merged hins hexisting hv)
termination_by sizeOf v

theorem insertEntries_merged : ∀ {incoming done result : List (KeyPart × Value)},
    insertEntries done incoming = .ok result → Value.EntriesDistinct done →
    Value.EntriesDistinct incoming → Merged done (Value.entrySites incoming) result
  | [], done, result, h, hdone, _ => by
      cases h
      exact merged_nil hdone
  | (k, v) :: rest, done, result, h, hdone, hincoming => by
      obtain ⟨-, hv, hrest⟩ := hincoming
      rw [insertEntries] at h
      split at h
      · next mid hmid =>
        have h₁ := insertEntry_merged hmid hdone hv
        exact h₁.trans (insertEntries_merged h h₁.distinct hrest)
      · cases h
termination_by incoming => sizeOf incoming

end

/-! ## The tree of a table under construction -/

mutual

/-- A node that has a value has just its sites, and in the node none meet
but tables. -/
theorem Node.value_merged : ∀ {n : Node} {v : Value}, n.value = .ok v →
    v.Distinct ∧ (∀ x, x ∈ v.sites ↔ x ∈ n.sites) ∧ Mergeable n.sites
  | .scalar _ l s, v, h => by
      cases h
      exact ⟨trivial, fun x => Iff.rfl, List.pairwise_singleton _ _⟩
  | .array faults l ofTables items, v, h => by
      rw [Node.value] at h
      obtain ⟨vs, hvs, rfl⟩ := exists_of_map_eq_ok h
      obtain ⟨hd, hmem, hmeet⟩ := Node.values_merged hvs 0
      refine ⟨hd, fun x => ?_, mergeable_cons_root ?_ hmeet⟩
      · rw [Value.sites, Node.sites, List.mem_cons, List.mem_cons, hmem]
      · intro τ hτ
        obtain ⟨j, c, hc, -⟩ := Node.exists_of_mem_itemSites hτ
        cases hc
  | .table faults l kind entries, v, h => by
      rw [Node.value] at h
      obtain ⟨es, hes, rfl⟩ := exists_of_map_eq_ok h
      obtain ⟨hmerged, hmeet⟩ := Node.addEntries_merged hes (show Value.EntriesDistinct [] from trivial)
      refine ⟨hmerged.distinct, fun x => ?_, mergeable_cons_root ?_ hmeet⟩
      · rw [Value.sites, Node.sites, List.mem_cons, List.mem_cons, hmerged.mem_iff]
        simp [Value.entrySites]
      · intro τ hτ
        simp [Node.mem_entrySites] at hτ

theorem Node.values_merged : ∀ {ns : List Node} {vs : List Value}, Node.values ns = .ok vs →
    ∀ i, Value.ItemsDistinct vs ∧
      (∀ x, x ∈ Value.itemSites i vs ↔ x ∈ Node.itemSites i ns) ∧ Mergeable (Node.itemSites i ns)
  | [], vs, h, i => by
      cases h
      exact ⟨trivial, fun x => Iff.rfl, .nil⟩
  | n :: ns, vs, h, i => by
      rw [Node.values] at h
      split at h
      · next v hv =>
        obtain ⟨us, hvs, rfl⟩ := exists_of_map_eq_ok h
        obtain ⟨hd, hmem, hmeet⟩ := Node.value_merged hv
        obtain ⟨hds, hmems, hmeets⟩ := Node.values_merged hvs (i + 1)
        refine ⟨⟨hd, hds⟩, fun x => ?_, ?_⟩
        · rw [Value.itemSites, Node.itemSites, List.mem_append, List.mem_append,
            mem_under_congr _ hmem, hmems]
        · refine mergeable_append.2 ⟨mergeable_under.2 hmeet, hmeets, ?_⟩
          intro a σ τ ha hb
          obtain ⟨c, rfl, -⟩ := mem_under.1 ha
          obtain ⟨j, d, hd, hj, -⟩ := Node.exists_of_mem_itemSites hb
          simp only [List.singleton_append, List.cons.injEq, Step.index.injEq] at hd
          omega
      · cases h

theorem Node.addEntries_merged : ∀ {es : List (KeyPart × Node)}
    {done result : List (KeyPart × Value)}, Node.addEntries done es = .ok result →
    Value.EntriesDistinct done →
    Merged done (Node.entrySites es) result ∧ Mergeable (Node.entrySites es)
  | [], done, result, h, hdone => by
      cases h
      exact ⟨merged_nil hdone, .nil⟩
  | (k, n) :: es, done, result, h, hdone => by
      rw [Node.addEntries] at h
      split at h
      · cases h
      · next v hv =>
        split at h
        · next mid hmid =>
          obtain ⟨hd, hmem, hmeet⟩ := Node.value_merged hv
          have h₁ := insertEntry_merged hmid hdone hd
          obtain ⟨h₂, hmeets⟩ := Node.addEntries_merged h h₁.distinct
          have hmem' := mem_under_congr _ hmem [.key k.name]
          have h₁' : Merged done (under [.key k.name] n.sites) mid :=
            ⟨h₁.distinct, fun x => by rw [h₁.mem_iff, hmem'],
              fun a σ τ ha hb => h₁.mayMeet a σ τ ha ((hmem' _).2 hb)⟩
          refine ⟨h₁'.trans h₂, mergeable_append.2 ⟨mergeable_under.2 hmeet, hmeets, ?_⟩⟩
          intro a σ τ ha hb
          exact h₂.mayMeet a σ τ ((h₁'.mem_iff _).2 (.inr ha)) hb
        · cases h

end

/-- A document's tree has the sites of the table it is made from, each at
an address of its own. -/
theorem Document.table_merged {d : Document} {t : Table} (h : d.table = .ok t) :
    (t.sites.map Prod.fst).Nodup ∧ (∀ x, x ∈ t.sites ↔ x ∈ d.contents.sites) ∧
      Mergeable d.contents.sites := by
  rw [Document.table] at h
  split at h
  · cases h
  · rw [Contents.table] at h
    obtain ⟨es, hes, rfl⟩ := exists_of_map_eq_ok h
    obtain ⟨hmerged, hmeet⟩ := Node.addEntries_merged hes trivial
    refine ⟨Value.nodup_entrySites hmerged.distinct, fun x => ?_, hmeet⟩
    rw [Table.sites, hmerged.mem_iff]
    simp [Value.entrySites, Contents.sites]

end AuditSettings.Toml
