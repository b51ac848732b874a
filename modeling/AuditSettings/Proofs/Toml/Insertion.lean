/-
AuditSettings.Proofs.Toml.Insertion — a document with a section more.

A section whose header is one name, and a name that nothing else in the
document begins with, adds a single entry to the table of the whole document.
The sections after it look up other names and so do the same as they would
have done without it (`Beside.addSections`); at no time is there a fault on
the whole document, or it would still be there in the end, and so no pairs
ever come into the outermost table from a header that did not fit. When the
tree is made, the entry stays the only one of its name and is met by none
(`Node.addEntries_insert`). What comes out is the tree of the other sections
with one entry put in somewhere (`Document.table_insert`).
-/
import AuditSettings.Proofs.Settings.Shown
import AuditSettings.Proofs.Toml.Merging
import AuditSettings.Proofs.Toml.Seen

namespace AuditSettings

/-! ## One item more -/

/-- Whether a list is another one with an item put in somewhere. -/
def Spliced {α : Type} (x : α) (xs ys : List α) : Prop :=
  ∃ before after, xs = before ++ after ∧ ys = before ++ x :: after

namespace Spliced

variable {α β : Type} {x y : α} {xs ys : List α}

theorem concat (x : α) (xs : List α) : Spliced x xs (xs ++ [x]) := ⟨xs, [], by simp, rfl⟩

theorem append (h : Spliced x xs ys) (zs : List α) : Spliced x (xs ++ zs) (ys ++ zs) := by
  obtain ⟨before, after, rfl, rfl⟩ := h
  exact ⟨before, after ++ zs, by simp, by simp⟩

theorem prepend (zs : List α) (h : Spliced x xs ys) : Spliced x (zs ++ xs) (zs ++ ys) := by
  obtain ⟨before, after, rfl, rfl⟩ := h
  exact ⟨zs ++ before, after, by simp, by simp⟩

theorem map (f : α → β) (h : Spliced x xs ys) : Spliced (f x) (xs.map f) (ys.map f) := by
  obtain ⟨before, after, rfl, rfl⟩ := h
  exact ⟨before.map f, after.map f, by simp, by simp⟩

theorem mem_iff (h : Spliced x xs ys) : y ∈ ys ↔ y = x ∨ y ∈ xs := by
  obtain ⟨before, after, rfl, rfl⟩ := h
  simp [or_left_comm]

/-- An item is put in before a given one or after it. -/
theorem around {older fresh : List α} (h : Spliced x (older ++ y :: fresh) ys) :
    (∃ older', Spliced x older older' ∧ ys = older' ++ y :: fresh) ∨
      ∃ fresh', Spliced x fresh fresh' ∧ ys = older ++ y :: fresh' := by
  obtain ⟨before, after, hsplit, rfl⟩ := h
  rcases List.append_eq_append_iff.1 hsplit with ⟨mid, rfl, hmid⟩ | ⟨mid, rfl, rfl⟩
  · cases mid with
    | nil =>
      obtain rfl : after = y :: fresh := hmid.symm
      exact .inl ⟨older ++ [x], .concat x older, by simp⟩
    | cons z mid =>
      obtain ⟨rfl, rfl⟩ := List.cons.inj hmid
      exact .inr ⟨mid ++ x :: after, ⟨mid, after, rfl, rfl⟩, by simp⟩
  · exact .inl ⟨before ++ x :: mid, ⟨before, mid, rfl, rfl⟩, by simp⟩

end Spliced

namespace Toml

open AuditSettings.Text

/-! ## Tables under construction -/

/-- Contents with an entry more. -/
structure Beside (e : KeyPart × Node) (t t' : Contents) : Prop where
  faults : t'.faults = t.faults
  entries : Spliced e t.entries t'.entries

namespace Contents

theorem lacks_iff {name : String} {t : Contents} :
    Lacks name t.entries ↔ ∀ σ, ([.key name], σ) ∉ t.sites := by
  constructor
  · intro h σ hσ
    obtain ⟨e, he, c, hc, -⟩ := Node.mem_entrySites.1 hσ
    exact h e he (by simpa using (List.cons.inj hc).1.symm)
  · rintro h e he rfl
    obtain ⟨σ, hσ⟩ := e.2.exists_shape
    exact h σ (Node.mem_entrySites.2 ⟨e, he, [], rfl, hσ⟩)

/-- A name that contents which have grown lack is one they lacked. -/
theorem Lacks.of_subperm {name : String} {t u : Contents} (h : Lacks name u.entries)
    (hsub : t.sites.Subperm u.sites) : Lacks name t.entries :=
  lacks_iff.2 fun σ hσ => lacks_iff.1 h σ (hsub.subset hσ)

end Contents

namespace Beside

open Contents

variable {e : KeyPart × Node} {t t' : Contents}

theorem push (h : Beside e t t') (k : KeyPart) (n : Node) :
    Beside e (t.push k n) (t'.push k n) :=
  ⟨h.faults, h.entries.append [(k, n)]⟩

theorem addFault (h : Beside e t t') (c : Clash) : Beside e (t.addFault c) (t'.addFault c) :=
  ⟨congrArg (· ++ [c]) h.faults, h.entries⟩

/-- Another name leads to the same entry. -/
theorem find?_eq (h : Beside e t t') {name : String} (hne : e.1.name ≠ name) :
    t'.find? name = t.find? name := by
  obtain ⟨before, after, ht, ht'⟩ := h.entries
  simp [find?, List.findRev?_eq_find?_reverse, ht, ht', List.find?_append, hne]

/-- Replacing the newest entry of another name leaves the entry there. -/
theorem setNewest (h : Beside e t t') {name : String} {k : KeyPart} {n : Node} (m : Node)
    (hfind : t.find? name = some (k, n)) (hne : e.1.name ≠ name) :
    Beside e (t.setNewest name m) (t'.setNewest name m) := by
  obtain ⟨hk, older, fresh, ht, hf⟩ := find?_eq_some_iff.1 hfind
  have hentries := h.entries
  rw [ht] at hentries
  rw [setNewest_eq ht hk hf]
  rcases hentries.around with ⟨older', holder, ht'⟩ | ⟨fresh', hfresh, ht'⟩
  · rw [setNewest_eq ht' hk hf]
    exact ⟨h.faults, holder.append _⟩
  · have hf' : Lacks name fresh' := by
      intro x hx
      rcases hfresh.mem_iff.1 hx with rfl | hx
      · exact hne
      · exact hf x hx
    rw [setNewest_eq ht' hk hf']
    exact ⟨h.faults, .prepend older (hfresh.prepend [(k, m)])⟩

/-- There is no fault when the entry has none. -/
theorem clean (h : Beside e t t') (ht : t.Clean .far) (he : e.2.Clean .far) : t'.Clean .far := by
  rcases clean_iff.1 ht with hblind | ⟨hfaults, hentries⟩
  · cases hblind
  · refine clean_iff.2 (.inr ⟨h.faults.trans hfaults, fun x hx => ?_⟩)
    rcases h.entries.mem_iff.1 hx with rfl | hx
    · exact he
    · exact hentries x hx

/-! ## Sections -/

/-- A table header of another name does the same beside the entry, unless it
does not fit. -/
theorem openTable (h : Beside e t t') {l : Location} {ps : List (Key × Expr)} {k : KeyPart}
    (hne : e.1.name ≠ k.name)
    (hclean : (Contents.openTable l (Expr.contents ps) k t).Clean .far) :
    Beside e (Contents.openTable l (Expr.contents ps) k t)
      (Contents.openTable l (Expr.contents ps) k t') := by
  rw [Contents.openTable] at hclean
  rw [Contents.openTable, Contents.openTable, h.find?_eq hne]
  split at hclean
  · exact h.push _ _
  · next hfind => exact h.setNewest _ hfind hne
  · -- the pairs would come into this table, but there would be a fault as well
    cases clean_addFault_iff.1 (stays_contents ps _ _ hclean)

/-- So does an array header. -/
theorem openArray (h : Beside e t t') {l : Location} {ps : List (Key × Expr)} {k : KeyPart}
    (hne : e.1.name ≠ k.name)
    (hclean : (Contents.openArray l (Expr.contents ps) k t).Clean .far) :
    Beside e (Contents.openArray l (Expr.contents ps) k t)
      (Contents.openArray l (Expr.contents ps) k t') := by
  rw [Contents.openArray] at hclean
  rw [Contents.openArray, Contents.openArray, h.find?_eq hne]
  split at hclean
  · exact h.push _ _
  · next hfind => exact h.setNewest _ hfind hne
  · next hfind =>
    obtain ⟨others, -, hnew⟩ := clean_frame hfind .far
    have hold := (hnew _).1 (stays_contents ps _ _ hclean)
    cases Node.eq_blind_of_clean hold.2 (by simp [Node.faults_addFault])

/-- A header of several names leads into the entry of its first. -/
theorem follow (h : Beside e t t') {arrive : KeyPart → Contents → Contents} {k k' : KeyPart}
    {ks : List KeyPart} (hne : e.1.name ≠ k.name) :
    Beside e (Contents.follow arrive k (k' :: ks) t)
      (Contents.follow arrive k (k' :: ks) t') := by
  rw [Contents.follow, Contents.follow, h.find?_eq hne]
  split
  · exact h.push _ _
  · next hfind => exact h.setNewest _ hfind hne
  · next hfind => exact h.setNewest _ hfind hne
  · exact (h.addFault _).push _ _

/-- A section of another name does the same beside the entry. -/
theorem addSection (h : Beside e t t') {s : Section} (hne : e.1.name ≠ s.heading.key.head.name)
    (hclean : (t.addSection s).Clean .far) : Beside e (t.addSection s) (t'.addSection s) := by
  obtain ⟨⟨l, ⟨k, ks⟩⟩ | ⟨l, ⟨k, ks⟩⟩, ps⟩ := s
  · cases ks with
    | nil => exact h.openTable hne hclean
    | cons k' ks => exact h.follow hne
  · cases ks with
    | nil => exact h.openArray hne hclean
    | cons k' ks => exact h.follow hne

/-- So do several. -/
theorem addSections {ss : List Section} (h : Beside e t t')
    (hne : ∀ s ∈ ss, e.1.name ≠ s.heading.key.head.name)
    (hclean : (ss.foldl Contents.addSection t).Clean .far) :
    Beside e (ss.foldl Contents.addSection t) (ss.foldl Contents.addSection t') := by
  induction ss generalizing t t' with
  | nil => exact h
  | cons s ss ih =>
    have hmid := stays_addSections ss .far _ hclean
    exact ih (h.addSection (hne s List.mem_cons_self) hmid)
      (fun x hx => hne x (List.mem_cons_of_mem _ hx)) hclean

end Beside

namespace Contents

/-- A section of a new name puts an entry at the end. -/
theorem addSection_new {t : Contents} {s : Section}
    (h : t.find? s.heading.key.head.name = none) :
    ∃ n, t.addSection s = t.push s.heading.key.head n := by
  obtain ⟨⟨l, ⟨k, ks⟩⟩ | ⟨l, ⟨k, ks⟩⟩, ps⟩ := s
  all_goals
    have hk : t.find? k.name = none := h
    cases ks with
    | nil => simp [addSection, follow, openTable, openArray, hk, Heading.key]
    | cons k' ks => simp [addSection, follow, hk, Heading.key]

/-- The first name of a section is there afterwards. -/
theorem ne_of_lacks_addSection {t : Contents} {s : Section} {name : String}
    (h : Lacks name (t.addSection s).entries) : name ≠ s.heading.key.head.name := by
  rintro rfl
  have hold : Lacks _ t.entries := h.of_subperm (grows_addSection s t)
  obtain ⟨n, hn⟩ := addSection_new (find?_eq_none_iff.2 hold)
  rw [hn] at h
  exact h (s.heading.key.head, n) (by simp [push]) rfl

/-- The first name of every section is there in the end. -/
theorem ne_of_lacks_addSections {ss : List Section} {t : Contents} {name : String}
    (h : Lacks name (ss.foldl addSection t).entries) :
    ∀ s ∈ ss, name ≠ s.heading.key.head.name := by
  induction ss generalizing t with
  | nil => simp
  | cons s ss ih =>
    have hmid : Lacks name (t.addSection s).entries := h.of_subperm (grows_addSections ss _)
    exact List.forall_mem_cons.2 ⟨ne_of_lacks_addSection hmid, ih h⟩

end Contents

/-! ## Trees -/

namespace Value

theorem exists_shape (v : Value) : ∃ σ, ([], σ) ∈ v.sites := by
  cases v with
  | scalar l s => exact ⟨.scalar s, by simp [sites]⟩
  | array l items => exact ⟨.array, by simp [sites]⟩
  | table l entries => exact ⟨.table, by simp [sites]⟩

/-- Entries lack a name when nothing stands there. -/
theorem lacks_iff {name : String} {es : List (KeyPart × Value)} :
    (∀ e ∈ es, e.1.name ≠ name) ↔ ∀ σ, ([.key name], σ) ∉ entrySites es := by
  constructor
  · intro h σ hσ
    obtain ⟨e, he, c, hc, -⟩ := mem_entrySites.1 hσ
    exact h e he (by simpa using (List.cons.inj hc).1.symm)
  · rintro h e he rfl
    obtain ⟨σ, hσ⟩ := e.2.exists_shape
    exact h σ (mem_entrySites.2 ⟨e, he, [], rfl, hσ⟩)

end Value

section Values

variable {k : KeyPart} {v : Value}

/-- Replacing the first value of another name leaves the entry there. -/
theorem replaceFirst_spliced {es es' : List (KeyPart × Value)} {name : String} (w : Value)
    (h : Spliced (k, v) es es') (hne : name ≠ k.name) :
    Spliced (k, v) (replaceFirst name w es) (replaceFirst name w es') := by
  obtain ⟨before, after, rfl, rfl⟩ := h
  induction before with
  | nil => exact ⟨[], replaceFirst name w after, rfl, by simp [replaceFirst, hne.symm]⟩
  | cons e before ih =>
    obtain ⟨k₁, v₁⟩ := e
    rw [List.cons_append, List.cons_append, replaceFirst, replaceFirst]
    split
    · exact ⟨(k₁, w) :: before, after, rfl, rfl⟩
    · exact ih.prepend [(k₁, v₁)]

/-- An entry of another name is added just as well. -/
theorem insertEntry_spliced {done done' result : List (KeyPart × Value)} {k₁ : KeyPart}
    {v₁ : Value} (h : Spliced (k, v) done done') (hne : k₁.name ≠ k.name)
    (hr : insertEntry done k₁ v₁ = .ok result) :
    ∃ result', insertEntry done' k₁ v₁ = .ok result' ∧ Spliced (k, v) result result' := by
  have hany : (done'.any fun e => e.1.name == k₁.name) = done.any fun e => e.1.name == k₁.name := by
    obtain ⟨before, after, rfl, rfl⟩ := h
    have hname : (k.name == k₁.name) = false := by simpa using hne.symm
    simp [hname]
  have hfind : (done'.find? fun e => e.1.name == k₁.name) =
      done.find? fun e => e.1.name == k₁.name := by
    obtain ⟨before, after, rfl, rfl⟩ := h
    simp [List.find?_append, hne.symm]
  cases v₁ with
  | scalar _ _ | array _ _ =>
    rw [insertEntry] at hr
    rw [insertEntry, hany]
    split at hr
    · cases hr
    · next hnone =>
      cases hr
      exact ⟨_, by rw [if_neg hnone], h.append _⟩
  | table l incoming =>
    rw [insertEntry] at hr
    rw [insertEntry, hfind]
    split at hr
    · next hnone =>
      cases hr
      exact ⟨_, rfl, h.append _⟩
    · next k₀ l' existing hsome =>
      obtain ⟨merged, hmerged, rfl⟩ := exists_of_map_eq_ok hr
      exact ⟨_, by rw [hmerged]; rfl, replaceFirst_spliced _ h hne⟩
    · cases hr

namespace Node

/-- Entries of other names are added just as well. -/
theorem addEntries_spliced {es : List (KeyPart × Node)} {done done' result : List (KeyPart × Value)}
    (h : Spliced (k, v) done done') (hlacks : Contents.Lacks k.name es)
    (hr : addEntries done es = .ok result) :
    ∃ result', addEntries done' es = .ok result' ∧ Spliced (k, v) result result' := by
  induction es generalizing done done' with
  | nil =>
    cases hr
    exact ⟨done', rfl, h⟩
  | cons e es ih =>
    obtain ⟨k₁, n₁⟩ := e
    obtain ⟨hne, hrest⟩ := List.forall_mem_cons.1 hlacks
    rw [addEntries] at hr
    rw [addEntries]
    split at hr
    · cases hr
    · next v₁ hv₁ =>
      split at hr
      · next mid hmid =>
        obtain ⟨mid', hmid', hsplice⟩ := insertEntry_spliced h hne hmid
        simp only [hmid']
        exact ih hsplice hrest hr
      · cases hr

theorem addEntries_append (es fs : List (KeyPart × Node)) (done : List (KeyPart × Value)) :
    addEntries done (es ++ fs) = (addEntries done es).bind fun mid => addEntries mid fs := by
  induction es generalizing done with
  | nil => rfl
  | cons e es ih =>
    obtain ⟨k, n⟩ := e
    rw [List.cons_append, addEntries, addEntries]
    cases n.value with
    | error err => rfl
    | ok v =>
      simp only
      cases insertEntry done k v with
      | error err => rfl
      | ok mid => exact ih mid

/-- A tree lacks the names that the entries it is made from lack. -/
theorem lacks_addEntries_iff {es : List (KeyPart × Node)} {result : List (KeyPart × Value)}
    {name : String} (h : addEntries [] es = .ok result) :
    (∀ e ∈ result, e.1.name ≠ name) ↔ Contents.Lacks name es := by
  obtain ⟨hmerged, -⟩ := addEntries_merged h trivial
  rw [Value.lacks_iff, Contents.lacks_iff (t := ⟨[], es⟩)]
  simp [hmerged.mem_iff, Value.entrySites, Contents.sites]

/-- The tree of some entries and one of a new name is theirs with an entry
more. -/
theorem addEntries_insert {es es' : List (KeyPart × Node)} {n : Node}
    {result : List (KeyPart × Value)} (h : Spliced (k, n) es es') (hn : n.value = .ok v)
    (hlacks : Contents.Lacks k.name es) (hr : addEntries [] es = .ok result) :
    ∃ result', addEntries [] es' = .ok result' ∧ Spliced (k, v) result result' := by
  obtain ⟨before, after, rfl, rfl⟩ := h
  rw [addEntries_append] at hr
  obtain ⟨mid, hmid, hafter⟩ := exists_of_bind_eq_ok hr
  have hlacksBefore : Contents.Lacks k.name before := fun e he =>
    hlacks e (List.mem_append_left _ he)
  have hlacksAfter : Contents.Lacks k.name after := fun e he =>
    hlacks e (List.mem_append_right _ he)
  have hlacksMid := (lacks_addEntries_iff hmid).2 hlacksBefore
  rw [addEntries_append, hmid]
  show ∃ result', addEntries mid ((k, n) :: after) = .ok result' ∧ _
  rw [addEntries, hn]
  simp only [insertEntry_new v hlacksMid]
  exact addEntries_spliced (.concat (k, v) mid) hlacksAfter hafter

end Node
end Values

/-! ## Whole documents -/

namespace Document

variable {opening : List (Key × Expr)} {before after : List Section} {l : Location} {k : KeyPart}
  {ps : List (Key × Expr)}

/-- A section of a new name puts its table beside what the others build. -/
theorem beside_contents
    (hlacks : Contents.Lacks k.name (contents ⟨opening, before ++ after⟩).entries)
    (hclean : (contents ⟨opening, before ++ after⟩).Clean .far) :
    Beside (k, (Expr.contents ps .empty).node l .regular) (contents ⟨opening, before ++ after⟩)
      (contents ⟨opening, before ++ ⟨.table l (.single k), ps⟩ :: after⟩) := by
  obtain ⟨t, ht⟩ : ∃ t, t = before.foldl Contents.addSection (Expr.contents opening .empty) :=
    ⟨_, rfl⟩
  have hold : contents ⟨opening, before ++ after⟩ = after.foldl Contents.addSection t := by
    rw [contents, List.foldl_append, ht]
  rw [hold] at hlacks hclean ⊢
  have hmid : Contents.Lacks k.name t.entries :=
    hlacks.of_subperm (Contents.grows_addSections after t)
  have hnew : t.addSection ⟨.table l (.single k), ps⟩ =
      t.push k ((Expr.contents ps .empty).node l .regular) := by
    simp [Contents.addSection, Key.single, Contents.follow, Contents.openTable,
      Contents.find?_eq_none_iff.2 hmid]
  have hpush : Beside (k, (Expr.contents ps .empty).node l .regular) t
      (t.addSection ⟨.table l (.single k), ps⟩) := by
    rw [hnew]
    exact ⟨rfl, .concat _ _⟩
  rw [contents, List.foldl_append, List.foldl_cons, ← ht]
  exact hpush.addSections (Contents.ne_of_lacks_addSections hlacks) hclean

/-- A document has a tree when nothing in it is at fault and its entries can be
put together. -/
theorem table_eq_ok_iff {d : Document} {t : Table} : d.table = .ok t ↔
    d.contents.Clean .far ∧ Node.addEntries [] d.contents.entries = .ok t.entries := by
  have hclean : d.contents.Clean .far ↔ d.contents.firstFault = none := Iff.rfl
  obtain ⟨entries⟩ := t
  rw [table, hclean]
  cases d.contents.firstFault with
  | some c => simp
  | none =>
    simp only [Contents.table, true_and]
    cases Node.addEntries [] d.contents.entries with
    | error e => simp [Except.map]
    | ok es => simp [Except.map]

/-- A section of a new name, of pairs that make a tree by themselves, adds one
entry to the tree of a document and takes nothing from it. -/
theorem table_insert {t u : Table} (h : table ⟨opening, before ++ after⟩ = .ok t)
    (hu : table ⟨ps, []⟩ = .ok u) (hk : t.get? k.name = none) :
    ∃ v t', table ⟨opening, before ++ ⟨.table l (.single k), ps⟩ :: after⟩ = .ok t' ∧
      Spliced (k, v) t.entries t'.entries := by
  obtain ⟨hclean, hentries⟩ := table_eq_ok_iff.1 h
  obtain ⟨hcleanNew, hentriesNew⟩ := table_eq_ok_iff.1 hu
  have hlacks := (Node.lacks_addEntries_iff hentries).1 (by simpa [Table.get?] using hk)
  have hbeside : Beside (k, (Expr.contents ps .empty).node l .regular) _ _ :=
    beside_contents hlacks hclean
  obtain ⟨v, hv⟩ := exists_map_eq_ok_iff.2 ⟨u.entries, hentriesNew⟩
  obtain ⟨result, hresult, hsplice⟩ := Node.addEntries_insert hbeside.entries hv hlacks hentries
  exact ⟨v, ⟨result⟩, table_eq_ok_iff.2
    ⟨hbeside.clean hclean (Contents.clean_node.2 hcleanNew), hresult⟩, hsplice⟩

end Document
end Toml
end AuditSettings
