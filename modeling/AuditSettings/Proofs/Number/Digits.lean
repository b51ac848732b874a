/-
AuditSettings.Proofs.Number.Digits — the number that a row of digits writes.

A row of digits is read from the left, and the place of a digit is told by the
digits behind it (`ofDigits_append`). Reading undoes writing in every base
whose digits there are (`ofDigits_toDigits`), so a number is told by its
digits.
-/
import AuditSettings.Number.Numeral
import Mathlib.Data.List.Induction
import Mathlib.Tactic.Ring

namespace AuditSettings.Number

variable {base n : Nat}

@[simp] theorem ofDigits_nil (base : Nat) : ofDigits base [] = 0 := rfl

theorem ofDigits_concat (base : Nat) (cs : List Char) (c : Char) :
    ofDigits base (cs ++ [c]) = ofDigits base cs * base + digitValue c := by
  rw [ofDigits, ofDigits, List.foldl_append, List.foldl_cons, List.foldl_nil]

/-- The digits in front count as many times more as there are numbers that
those behind can write. -/
theorem ofDigits_append (base : Nat) (cs ds : List Char) :
    ofDigits base (cs ++ ds) = ofDigits base cs * base ^ ds.length + ofDigits base ds := by
  induction ds using List.reverseRecOn with
  | nil => simp
  | append_singleton ds d ih =>
    rw [← List.append_assoc, ofDigits_concat, ih, ofDigits_concat, List.length_append,
      List.length_singleton, pow_succ]
    ring

theorem ofDigits_cons (base : Nat) (c : Char) (cs : List Char) :
    ofDigits base (c :: cs) = digitValue c * base ^ cs.length + ofDigits base cs := by
  rw [← List.singleton_append, ofDigits_append, ← List.nil_append [c], ofDigits_concat,
    ofDigits_nil, Nat.zero_mul, Nat.zero_add]

/-! ## Written numbers -/

/-- The digits of a number are those of its base. -/
theorem forall_mem_toDigits {p : Char → Prop} (hbase : 1 < base)
    (h : ∀ d < base, p (Nat.digitChar d)) : ∀ c ∈ Nat.toDigits base n, p c := by
  induction n using Nat.strongRecOn with
  | ind n ih =>
    by_cases hn : n < base
    · rw [Nat.toDigits_of_lt_base hn, List.forall_mem_singleton]
      exact h n hn
    · have hlt : n / base < n := Nat.div_lt_self (by omega) hbase
      rw [Nat.toDigits_of_base_le hbase (by omega), List.forall_mem_append,
        List.forall_mem_singleton]
      exact ⟨ih _ hlt, h _ (Nat.mod_lt n (by omega))⟩

/-- A number that is written is read again. -/
theorem ofDigits_toDigits (hbase : 1 < base) (hdigits : base ≤ 16) (n : Nat) :
    ofDigits base (Nat.toDigits base n) = n := by
  have hvalue : ∀ d < 16, digitValue (Nat.digitChar d) = d := by decide
  induction n using Nat.strongRecOn with
  | ind n ih =>
    by_cases hn : n < base
    · rw [Nat.toDigits_of_lt_base hn, ← List.nil_append [_], ofDigits_concat, hvalue n (by omega),
        ofDigits_nil, Nat.zero_mul, Nat.zero_add]
    · have hlt : n / base < n := Nat.div_lt_self (by omega) hbase
      have hmod : n % base < base := Nat.mod_lt n (by omega)
      rw [Nat.toDigits_of_base_le hbase (by omega), ofDigits_concat, ih _ hlt,
        hvalue _ (by omega), Nat.mul_comm]
      exact Nat.div_add_mod n base

theorem toDigits_injective (hbase : 1 < base) (hdigits : base ≤ 16) :
    Function.Injective (Nat.toDigits base) := by
  intro m n h
  rw [← ofDigits_toDigits hbase hdigits m, h, ofDigits_toDigits hbase hdigits]

end AuditSettings.Number
