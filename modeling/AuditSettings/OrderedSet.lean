/-
AuditSettings.OrderedSet — finite sets with one form each.

A set is kept as the list of its members in strictly increasing order. The
order is part of the type, so two sets with the same members are equal,
and whatever prints a set prints it in one way.
-/

namespace AuditSettings

/-- A finite set, as its members in increasing order. -/
structure OrderedSet (α : Type) [Ord α] where
  members : List α
  increasing : members.Pairwise fun a b => compare a b = .lt

namespace OrderedSet

variable {α : Type} [Ord α]

/-- An increasing list with one more member at its place. -/
def place (a : α) : List α → List α
  | [] => [a]
  | b :: bs =>
    match compare a b with
    | .lt => a :: b :: bs
    | .eq => b :: bs
    | .gt => b :: place a bs

variable [Std.LawfulEqOrd α]

theorem mem_place {a x : α} {l : List α} : x ∈ place a l ↔ x = a ∨ x ∈ l := by
  induction l with
  | nil => simp [place]
  | cons b bs ih =>
    unfold place
    split
    · simp
    · next h =>
      have : a = b := Std.LawfulEqOrd.eq_of_compare h
      subst this
      simp
    · simp only [List.mem_cons, ih]
      constructor <;> (rintro (h | h | h) <;> simp [h])

variable [Std.TransOrd α]

theorem pairwise_place {a : α} {l : List α}
    (hl : l.Pairwise fun a b => compare a b = .lt) :
    (place a l).Pairwise fun a b => compare a b = .lt := by
  induction l with
  | nil => simp [place]
  | cons b bs ih =>
    obtain ⟨hb, hbs⟩ := List.pairwise_cons.1 hl
    unfold place
    split
    · next h =>
      refine List.pairwise_cons.2 ⟨fun x hx => ?_, hl⟩
      rcases List.mem_cons.1 hx with rfl | hx
      · exact h
      · exact Std.TransCmp.lt_trans h (hb x hx)
    · exact hl
    · next h =>
      refine List.pairwise_cons.2 ⟨fun x hx => ?_, ih hbs⟩
      rcases mem_place.1 hx with rfl | hx
      · exact Std.OrientedCmp.lt_of_gt h
      · exact hb x hx

/-- The set without members. -/
def empty : OrderedSet α := ⟨[], .nil⟩

/-- The set with one more member. -/
def insert (s : OrderedSet α) (a : α) : OrderedSet α :=
  ⟨place a s.members, pairwise_place s.increasing⟩

/-- The set of the members of a list. -/
def ofList (l : List α) : OrderedSet α := l.foldl insert empty

instance : Membership α (OrderedSet α) := ⟨fun s a => a ∈ s.members⟩

instance [DecidableEq α] (a : α) (s : OrderedSet α) : Decidable (a ∈ s) :=
  inferInstanceAs (Decidable (a ∈ s.members))

instance [DecidableEq α] : DecidableEq (OrderedSet α) := fun s t =>
  if h : s.members = t.members then
    .isTrue (by cases s; cases t; cases h; rfl)
  else .isFalse fun e => h (e ▸ rfl)

theorem mem_insert {s : OrderedSet α} {a x : α} : x ∈ s.insert a ↔ x = a ∨ x ∈ s := mem_place

theorem mem_ofList {l : List α} {x : α} : x ∈ ofList l ↔ x ∈ l := by
  suffices h : ∀ s : OrderedSet α, x ∈ l.foldl insert s ↔ x ∈ s ∨ x ∈ l by
    refine (h empty).trans ⟨?_, .inr⟩
    rintro (h | h)
    · exact absurd h (List.not_mem_nil)
    · exact h
  induction l with
  | nil => intro s; simp
  | cons a l ih =>
    intro s
    simp only [List.foldl_cons, ih, mem_insert, List.mem_cons]
    constructor
    · rintro ((h | h) | h) <;> simp [h]
    · rintro (h | h | h) <;> simp [h]

/-- An increasing list is told by its members. -/
theorem eq_of_mem_iff {l m : List α} (hl : l.Pairwise fun a b => compare a b = .lt)
    (hm : m.Pairwise fun a b => compare a b = .lt) (h : ∀ x, x ∈ l ↔ x ∈ m) : l = m := by
  induction l generalizing m with
  | nil =>
    cases m with
    | nil => rfl
    | cons b m => exact absurd ((h b).2 List.mem_cons_self) List.not_mem_nil
  | cons a l ih =>
    cases m with
    | nil => exact absurd ((h a).1 List.mem_cons_self) List.not_mem_nil
    | cons b m =>
      obtain ⟨ha, hl'⟩ := List.pairwise_cons.1 hl
      obtain ⟨hb, hm'⟩ := List.pairwise_cons.1 hm
      have hab : a = b := by
        rcases List.mem_cons.1 ((h a).1 List.mem_cons_self) with hab | hab
        · exact hab
        · rcases List.mem_cons.1 ((h b).2 List.mem_cons_self) with hba | hba
          · exact hba.symm
          · have := Std.TransCmp.lt_trans (ha b hba) (hb a hab)
            simp at this
      subst hab
      have hne {x : α} {k : List α} (hk : ∀ y ∈ k, compare x y = .lt) : x ∉ k := by
        intro hx
        have := hk x hx
        simp at this
      congr 1
      refine ih hl' hm' fun x => ⟨fun hx => ?_, fun hx => ?_⟩
      · rcases List.mem_cons.1 ((h x).1 (List.mem_cons_of_mem _ hx)) with rfl | hx'
        · exact absurd hx (hne ha)
        · exact hx'
      · rcases List.mem_cons.1 ((h x).2 (List.mem_cons_of_mem _ hx)) with rfl | hx'
        · exact absurd hx (hne hb)
        · exact hx'

/-- Two sets with the same members are equal. -/
theorem ext {s t : OrderedSet α} (h : ∀ x, x ∈ s ↔ x ∈ t) : s = t := by
  have hm : s.members = t.members := eq_of_mem_iff s.increasing t.increasing h
  cases s
  cases t
  cases hm
  rfl

end OrderedSet
end AuditSettings
