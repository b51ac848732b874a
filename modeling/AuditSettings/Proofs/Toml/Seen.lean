/-
AuditSettings.Proofs.Toml.Seen — which faults are seen, and that they stay.

Validation looks for faults in all tables, but in an array only on the items
themselves. `Clean` says that nothing is found from a node on, for each of
the two ways to look and for not looking at all. Building never takes a
fault away (`Stays`), so whatever is not found in the end was not there at
any time before.
-/
import AuditSettings.Proofs.Toml.Acts
import AuditSettings.Proofs.Toml.Newest

namespace AuditSettings.Toml

open AuditSettings.Text

/-! ## Looking for faults -/

/-- Whether no fault is seen from a node on. -/
def Node.Clean : Sight → Node → Prop
  | .far, n => n.firstFault = none
  | .near, n => n.faults = []
  | .blind, _ => True

/-- Whether no fault is seen from a table under construction on. -/
def Contents.Clean (s : Sight) (t : Contents) : Prop := (t.node .origin .regular).Clean s

@[simp] theorem Node.clean_blind (n : Node) : n.Clean .blind := trivial

@[simp] theorem Contents.clean_blind (t : Contents) : t.Clean .blind := trivial

@[simp] theorem Contents.clean_node {s : Sight} {t : Contents} {l : Location} {kind : TableKind} :
    (t.node l kind).Clean s ↔ t.Clean s := by
  cases s <;> exact Iff.rfl

theorem Node.clean_table {s : Sight} {faults : List Clash} {l : Location} {kind : TableKind}
    {es : List (KeyPart × Node)} :
    (Node.table faults l kind es).Clean s ↔ Contents.Clean s ⟨faults, es⟩ :=
  Contents.clean_node (t := ⟨faults, es⟩)

theorem Node.firstFaultIn_eq_none_iff {es : List (KeyPart × Node)} :
    firstFaultIn es = none ↔ ∀ e ∈ es, e.2.firstFault = none := by
  induction es with
  | nil => simp [firstFaultIn]
  | cons e es ih =>
    obtain ⟨k, n⟩ := e
    rw [firstFaultIn, List.forall_mem_cons, ← ih]
    cases n.firstFault <;> simp

/-- A table is clean when it has no faults and what its names lead to is
clean. -/
theorem Contents.clean_iff {s : Sight} {t : Contents} : t.Clean s ↔
    s = .blind ∨ t.faults = [] ∧ ∀ e ∈ t.entries, e.2.Clean (s.within (.key e.1.name)) := by
  cases s with
  | far =>
    show (t.node .origin .regular).firstFault = none ↔ _
    rw [node, Node.firstFault]
    cases t.faults with
    | nil =>
      simp only [List.head?_nil, reduceCtorEq, false_or, true_and]
      exact Node.firstFaultIn_eq_none_iff
    | cons c faults => simp
  | near =>
    show t.faults = [] ↔ _
    simp [Sight.within]
  | blind => simp

/-- An array is clean when it has no faults and its items are clean. -/
theorem Node.clean_array_iff {s : Sight} {faults : List Clash} {l : Location} {ofTables : Bool}
    {items : List Node} (i : Nat) : (Node.array faults l ofTables items).Clean s ↔
      s = .blind ∨ faults = [] ∧ ∀ n ∈ items, n.Clean (s.within (.index i)) := by
  cases s with
  | far =>
    show (Node.array faults l ofTables items).firstFault = none ↔ _
    simp [firstFault, Sight.within, Clean]
  | near =>
    show faults = [] ↔ _
    simp [Sight.within]
  | blind => simp

theorem Node.clean_item {s : Sight} {faults : List Clash} {l : Location} {ofTables : Bool}
    {items : List Node} (h : (Node.array faults l ofTables items).Clean s) (i : Nat) {n : Node}
    (hn : n ∈ items) : n.Clean (s.within (.index i)) := by
  rcases (clean_array_iff i).1 h with rfl | ⟨-, hitems⟩
  · trivial
  · exact hitems n hn

/-- A node with faults of its own is clean only unseen. -/
theorem Node.eq_blind_of_clean {s : Sight} {n : Node} (h : n.Clean s) (hfaults : n.faults ≠ []) :
    s = .blind := by
  cases s with
  | far =>
    cases n with
    | scalar faults l v =>
      have hnone : faults.head? = none := h
      exact absurd (List.head?_eq_none_iff.1 hnone) hfaults
    | array faults l ofTables items =>
      rcases (clean_array_iff 0).1 h with hb | ⟨hf, -⟩
      · cases hb
      · exact absurd hf hfaults
    | table faults l kind entries =>
      rcases Contents.clean_iff.1 (clean_table.1 h) with hb | ⟨hf, -⟩
      · cases hb
      · exact absurd hf hfaults
  | near => exact absurd h hfaults
  | blind => rfl

theorem Node.faults_addFault (c : Clash) (n : Node) : (n.addFault c).faults = n.faults ++ [c] := by
  cases n <;> rfl

theorem Contents.eq_blind_of_clean {s : Sight} {t : Contents} (h : t.Clean s)
    (hfaults : t.faults ≠ []) : s = .blind :=
  Node.eq_blind_of_clean h hfaults

/-! ## Changes and faults -/

namespace Contents

variable {s : Sight} {t : Contents} {k : KeyPart} {n : Node}

theorem clean_push_iff :
    (t.push k n).Clean s ↔ t.Clean s ∧ n.Clean (s.within (.key k.name)) := by
  rw [clean_iff, clean_iff]
  by_cases hs : s = .blind
  · subst hs
    simp [Sight.within]
  · simp only [hs, false_or, push, List.mem_append, List.mem_singleton, or_imp, forall_and,
      forall_eq, and_assoc]

theorem clean_addFault_iff {c : Clash} : (t.addFault c).Clean s ↔ s = .blind := by
  constructor
  · intro h
    exact eq_blind_of_clean h (by simp [addFault])
  · rintro rfl
    trivial

theorem clean_of_addFault {c : Clash} (h : (t.addFault c).Clean s) : t.Clean s := by
  rw [clean_addFault_iff.1 h]
  trivial

/-- Replacing the newest entry of a name leaves it to that entry alone
whether the table is clean. -/
theorem clean_frame {name : String} (h : t.find? name = some (k, n)) (s : Sight) :
    ∃ others : Prop, (t.Clean s ↔ others ∧ n.Clean (s.within (.key name))) ∧
      ∀ m : Node, (t.setNewest name m).Clean s ↔ others ∧ m.Clean (s.within (.key name)) := by
  obtain ⟨hk, older, fresh, ht, hf⟩ := find?_eq_some_iff.1 h
  refine ⟨s = .blind ∨ t.faults = [] ∧
    ∀ e ∈ older ++ fresh, e.2.Clean (s.within (.key e.1.name)), ?_, fun m => ?_⟩
  · rw [clean_iff, ht, ← hk]
    by_cases hs : s = .blind
    · subst hs
      simp [Sight.within]
    · simp only [hs, false_or, List.mem_append, List.mem_cons, or_imp, forall_and, forall_eq]
      grind
  · rw [clean_iff, setNewest_eq ht hk hf, ← hk]
    by_cases hs : s = .blind
    · subst hs
      simp [Sight.within]
    · simp only [hs, false_or, List.mem_append, List.mem_cons, or_imp, forall_and, forall_eq]
      grind

/-- A change that takes no fault away. -/
def Stays (f : Contents → Contents) : Prop := ∀ s t, (f t).Clean s → t.Clean s

theorem clean_of_setNewest {name : String} {m : Node} (hfind : t.find? name = some (k, n))
    (h : (t.setNewest name m).Clean s)
    (hnm : m.Clean (s.within (.key name)) → n.Clean (s.within (.key name))) : t.Clean s := by
  obtain ⟨others, hold, hnew⟩ := clean_frame hfind s
  obtain ⟨hothers, hm⟩ := (hnew m).1 h
  exact hold.2 ⟨hothers, hnm hm⟩

/-- Faults may have been added as well. -/
theorem clean_of_faults {faults faults' : List Clash} {es : List (KeyPart × Node)}
    (h : Contents.Clean s ⟨faults', es⟩) (hsub : faults' = [] → faults = []) :
    Contents.Clean s ⟨faults, es⟩ := by
  rw [clean_iff] at h ⊢
  exact h.imp_right fun ⟨hf, hes⟩ => ⟨hsub hf, hes⟩

theorem stays_put (n : Node) (k : KeyPart) (ks : List KeyPart) : Stays (put n k ks) := by
  induction ks generalizing k with
  | nil =>
    intro s t h
    rw [put, pushNew] at h
    split at h
    · exact clean_of_addFault (clean_push_iff.1 h).1
    · exact (clean_push_iff.1 h).1
  | cons k' ks ih =>
    intro s t h
    rw [put] at h
    split at h
    · next old faults l kind entries hfind =>
      split at h
      · refine clean_of_setNewest hfind h fun hm => ?_
        exact Node.clean_table.2 (ih k' _ _ (clean_node.1 hm))
      · exact clean_of_addFault (clean_push_iff.1 h).1
    · exact clean_of_addFault (clean_push_iff.1 h).1
    · exact (clean_push_iff.1 h).1

theorem stays_contents (ps : List (Key × Expr)) : Stays (Expr.contents ps) := by
  induction ps with
  | nil =>
    intro s t h
    exact h
  | cons p ps ih =>
    obtain ⟨k, e⟩ := p
    intro s t h
    exact stays_put e.node k.head k.tail s t (ih s _ h)

theorem clean_of_fillLast {fill : Contents → Contents} (hfill : Stays fill) {l : Location}
    {items : List Node} (h : ∀ n ∈ fillLast l fill items, n.Clean s) :
    ∀ n ∈ items, n.Clean s := by
  unfold fillLast at h
  split at h
  · next faults l' kind entries hlast =>
    obtain ⟨init, rfl⟩ := List.getLast?_eq_some_iff.1 hlast
    rw [List.dropLast_concat] at h
    intro n hn
    rcases List.mem_append.1 hn with hn | hn
    · exact h n (List.mem_append_left _ hn)
    · obtain rfl := List.mem_singleton.1 hn
      have := h _ (List.mem_append_right _ List.mem_cons_self)
      exact Node.clean_table.2 (hfill _ _ (clean_node.1 this))
  · intro n hn
    exact h n (List.mem_append_left _ hn)

theorem stays_follow {arrive : KeyPart → Contents → Contents} (harrive : ∀ k, Stays (arrive k))
    (k : KeyPart) (ks : List KeyPart) : Stays (follow arrive k ks) := by
  induction ks generalizing k with
  | nil => exact harrive k
  | cons k' ks ih =>
    intro s t h
    rw [follow] at h
    split at h
    · exact (clean_push_iff.1 h).1
    · next old faults l kind entries hfind =>
      refine clean_of_setNewest hfind h fun hm => ?_
      refine Node.clean_table.2 (clean_of_faults (ih k' _ _ (clean_node.1 hm)) ?_)
      split <;> simp
    · next old faults l ofTables items hfind =>
      refine clean_of_setNewest hfind h fun hm => ?_
      rw [Node.clean_array_iff 0] at hm ⊢
      refine hm.imp_right fun ⟨hf, hitems⟩ => ⟨?_, clean_of_fillLast (ih k') hitems⟩
      split at hf
      · exact hf
      · simp at hf
    · exact clean_of_addFault (clean_push_iff.1 h).1

theorem stays_openTable (l : Location) {fill : Contents → Contents} (hfill : Stays fill)
    (k : KeyPart) : Stays (openTable l fill k) := by
  intro s t h
  rw [openTable] at h
  split at h
  · exact (clean_push_iff.1 h).1
  · next old faults l' kind entries hfind =>
    refine clean_of_setNewest hfind h fun hm => ?_
    refine Node.clean_table.2 (clean_of_faults (hfill _ _ (clean_node.1 hm)) ?_)
    split <;> simp
  · exact clean_of_addFault (hfill _ _ h)

theorem stays_openArray (l : Location) {fill : Contents → Contents} (hfill : Stays fill)
    (k : KeyPart) : Stays (openArray l fill k) := by
  intro s t h
  rw [openArray] at h
  split at h
  · exact (clean_push_iff.1 h).1
  · next old faults l' ofTables items hfind =>
    refine clean_of_setNewest hfind h fun hm => ?_
    rw [Node.clean_array_iff 0] at hm ⊢
    refine hm.imp_right fun ⟨hf, hitems⟩ => ⟨?_, fun n hn => hitems n (List.mem_append_left _ hn)⟩
    split at hf
    · exact hf
    · simp at hf
  · next old n hnot hfind =>
    refine clean_of_setNewest hfind (hfill _ _ h) fun hm => ?_
    rw [Node.eq_blind_of_clean hm (by simp [Node.faults_addFault])]
    trivial

/-- A section takes no fault away. -/
theorem stays_addSection (sec : Section) : Stays fun t => t.addSection sec := by
  intro s t h
  unfold addSection at h
  split at h
  · exact stays_follow (stays_openTable _ (stays_contents _)) _ _ s t h
  · exact stays_follow (stays_openArray _ (stays_contents _)) _ _ s t h

theorem stays_addSections (secs : List Section) : Stays (secs.foldl addSection) := by
  induction secs with
  | nil =>
    intro s t h
    exact h
  | cons sec secs ih =>
    intro s t h
    exact stays_addSection sec s t (ih s _ h)

end Contents
end AuditSettings.Toml
