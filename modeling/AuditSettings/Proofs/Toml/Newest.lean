/-
AuditSettings.Proofs.Toml.Newest — what a table under construction finds
under a key.

A table may hold several entries of one name, and the newest is the one
that is found and replaced. `find?_eq_some_iff` splits the entries around
it: older entries of any name before it, and after it none of its own.
Every step of building a table either adds an entry at the end or replaces
the newest of a name, so nothing else is ever needed about the lookup.
-/
import AuditSettings.Toml.Node

namespace AuditSettings.Toml

namespace Contents

/-- Whether entries hold a name. -/
def Lacks (name : String) (entries : List (KeyPart × Node)) : Prop :=
  ∀ e ∈ entries, e.1.name ≠ name

theorem find?_eq_none_iff {t : Contents} {name : String} :
    t.find? name = none ↔ Lacks name t.entries := by
  rw [find?, List.findRev?_eq_find?_reverse, List.find?_eq_none]
  simp [Lacks]

theorem find?_eq_some_iff {t : Contents} {name : String} {k : KeyPart} {n : Node} :
    t.find? name = some (k, n) ↔
      k.name = name ∧ ∃ older fresh, t.entries = older ++ (k, n) :: fresh ∧ Lacks name fresh := by
  rw [find?, List.findRev?_eq_find?_reverse, List.find?_eq_some_iff_append]
  simp only [beq_iff_eq, Bool.not_eq_true', beq_eq_false_iff_ne, ne_eq]
  constructor
  · rintro ⟨hk, fresh, older, hrev, hf⟩
    refine ⟨hk, older.reverse, fresh.reverse, ?_, fun e he => hf e (List.mem_reverse.1 he)⟩
    rw [← List.reverse_reverse t.entries, hrev]
    simp
  · rintro ⟨hk, older, fresh, ht, hf⟩
    refine ⟨hk, fresh.reverse, older.reverse, ?_, fun e he => hf e (List.mem_reverse.1 he)⟩
    simp [ht]

/-- The newest entry of a name is the one that is replaced. -/
theorem setNewest_eq {t : Contents} {name : String} {k : KeyPart} {n m : Node}
    {older fresh : List (KeyPart × Node)} (ht : t.entries = older ++ (k, n) :: fresh)
    (hk : k.name = name) (hf : Lacks name fresh) :
    t.setNewest name m = { t with entries := older ++ (k, m) :: fresh } := by
  have hrev : t.entries.reverse = fresh.reverse ++ (k, n) :: older.reverse := by simp [ht]
  have hstop : ∀ e ∈ fresh.reverse, (e.1.name != name) = true := by
    intro e he
    simpa using hf e (List.mem_reverse.1 he)
  unfold setNewest
  rw [hrev, List.dropWhile_append_of_pos hstop, List.takeWhile_append_of_pos hstop]
  simp [hk]

end Contents
end AuditSettings.Toml
