/-
AuditSettings.Proofs.Text.Quoting — a text is told by what is between its
quotes.

Between quotes a character is written with a sign of its own after a backslash,
by a number after a backslash and a `u`, or as itself (`Escaping`). Where no two
characters share a sign and a number tells where it ends, what is written of a
character tells it whatever follows, and the quote that ends the text begins no
character (`Escaping.flatMap_inj`). Quoted text is written in this way: its
numbers end in a brace (`quoted_append_inj`).
-/
import AuditSettings.Proofs.Number.Digits
import AuditSettings.Text.Quoted
import AuditSettings.Text.Split

namespace AuditSettings.Text

variable {x y : List Char} {c d : Char}

/-! ## Escaped characters -/

/-- A way to write characters between quotes: with a sign, by a number if they
are `Numbered`, or as themselves. No two of them share a sign or a number. -/
structure Escaping where
  write : Char → List Char
  signs : List (Char × Char)
  Numbered : Char → Prop
  number : Char → List Char
  write_cases : ∀ c, (∃ sign, (c, sign) ∈ signs ∧ write c = ['\\', sign]) ∨
    Numbered c ∧ write c = '\\' :: 'u' :: number c ∨ (c ≠ '"' ∧ c ≠ '\\') ∧ write c = [c]
  sign_inj : ∀ p ∈ signs, p.2 ≠ 'u' ∧ ∀ q ∈ signs, p.2 = q.2 → p.1 = q.1
  number_inj : ∀ {c d x y}, Numbered c → Numbered d → number c ++ x = number d ++ y → c = d ∧ x = y

namespace Escaping

variable (e : Escaping)

/-- What is written of a character tells it and where it ends. -/
theorem write_append_inj (h : e.write c ++ x = e.write d ++ y) : c = d ∧ x = y := by
  -- a backslash begins the first two forms only, and what follows it tells these apart
  rcases e.write_cases c with ⟨sign, hc, hcs⟩ | ⟨hc, hcs⟩ | ⟨⟨-, hc⟩, hcs⟩ <;>
    rcases e.write_cases d with ⟨sign', hd, hds⟩ | ⟨hd, hds⟩ | ⟨⟨-, hd⟩, hds⟩ <;>
    rw [hcs, hds] at h
  · obtain ⟨-, rfl, hrest⟩ : '\\' = '\\' ∧ sign = sign' ∧ x = y := by simpa using h
    exact ⟨(e.sign_inj _ hc).2 _ hd rfl, hrest⟩
  · obtain ⟨hu, -⟩ := List.cons.inj (List.cons.inj h).2
    exact absurd hu (e.sign_inj _ hc).1
  · exact absurd (List.cons.inj h).1.symm hd
  · obtain ⟨hu, -⟩ := List.cons.inj (List.cons.inj h).2
    exact absurd hu.symm (e.sign_inj _ hd).1
  · exact e.number_inj hc hd (List.cons.inj (List.cons.inj h).2).2
  · exact absurd (List.cons.inj h).1.symm hd
  · exact absurd (List.cons.inj h).1 hc
  · exact absurd (List.cons.inj h).1 hc
  · simpa using h

/-- No written character begins like the end of a text. -/
theorem write_append_ne (c : Char) : e.write c ++ x ≠ '"' :: y := by
  intro h
  rcases e.write_cases c with ⟨sign, -, hcs⟩ | ⟨-, hcs⟩ | ⟨⟨hc, -⟩, hcs⟩ <;> rw [hcs] at h
  · exact absurd (List.cons.inj h).1 (by decide)
  · exact absurd (List.cons.inj h).1 (by decide)
  · exact hc (List.cons.inj h).1

/-- A row of written characters is told up to its quote. -/
theorem flatMap_inj : ∀ {cs ds : List Char},
    cs.flatMap e.write ++ '"' :: x = ds.flatMap e.write ++ '"' :: y → cs = ds ∧ x = y
  | [], [], h => ⟨rfl, (List.cons.inj h).2⟩
  | [], d :: ds, h => by
      rw [List.flatMap_cons, List.append_assoc] at h
      exact absurd h.symm (e.write_append_ne d)
  | c :: cs, [], h => by
      rw [List.flatMap_cons, List.append_assoc] at h
      exact absurd h (e.write_append_ne c)
  | c :: cs, d :: ds, h => by
      rw [List.flatMap_cons, List.flatMap_cons, List.append_assoc, List.append_assoc] at h
      obtain ⟨rfl, hrest⟩ := e.write_append_inj h
      obtain ⟨rfl, hxy⟩ := flatMap_inj hrest
      exact ⟨rfl, hxy⟩

end Escaping

/-! ## Numbers in braces -/

/-- The digits of a number tell it and end at the brace. -/
theorem hexDigits_append_inj {m n : Nat}
    (h : hexDigits m ++ '\x7d' :: x = hexDigits n ++ '\x7d' :: y) : m = n ∧ x = y := by
  have hbrace (k : Nat) : '\x7d' ∉ hexDigits k := fun hmem =>
    Number.forall_mem_toDigits (p := (· ≠ '\x7d')) (by decide) (by decide) _ hmem rfl
  have hcut (k : Nat) (z : List Char) :
      splitOnce '\x7d' (hexDigits k ++ '\x7d' :: z) = some (hexDigits k, z) :=
    splitOnce_eq_some_iff.2 ⟨rfl, hbrace k⟩
  have hparts : (hexDigits m, x) = (hexDigits n, y) := by
    rw [← Option.some.injEq, ← hcut, h, hcut]
  obtain ⟨hdigits, hrest⟩ := Prod.mk.inj hparts
  exact ⟨Number.toDigits_injective (by decide) (by decide) hdigits, hrest⟩

/-! ## Quoted text -/

/-- The characters that quoted text writes with a sign, each with it. -/
def quotedSigns : List (Char × Char) :=
  [('"', '"'), ('\\', '\\'), ('\n', 'n'), ('\r', 'r'), ('\t', 't'), ('\x00', '0')]

/-- A character of quoted text is written with a sign, by its number in braces,
or as itself. -/
theorem quotedChar_cases (c : Char) :
    (∃ sign, (c, sign) ∈ quotedSigns ∧ quotedChar c = ['\\', sign]) ∨
      True ∧ quotedChar c = '\\' :: 'u' :: ('\x7b' :: hexDigits c.toNat ++ ['\x7d']) ∨
      (c ≠ '"' ∧ c ≠ '\\') ∧ quotedChar c = [c] := by
  by_cases hsign : c ∈ quotedSigns.map Prod.fst
  · obtain ⟨⟨d, sign⟩, hmem, rfl⟩ := List.mem_map.1 hsign
    refine .inl ⟨sign, hmem, ?_⟩
    simp only [quotedSigns, List.mem_cons, Prod.mk.injEq, List.not_mem_nil, or_false] at hmem
    rcases hmem with ⟨rfl, rfl⟩ | ⟨rfl, rfl⟩ | ⟨rfl, rfl⟩ | ⟨rfl, rfl⟩ | ⟨rfl, rfl⟩ | ⟨rfl, rfl⟩ <;>
      rfl
  · simp only [quotedSigns, List.map_cons, List.map_nil, List.mem_cons, List.not_mem_nil, or_false,
      not_or] at hsign
    obtain ⟨hquote, hbackslash, hn, hr, ht, hnul⟩ := hsign
    have hzero : c.toNat ≠ 0 := fun h => hnul (Char.toNat_inj.1 h)
    rw [quotedChar, if_neg hquote, if_neg hbackslash, if_neg hn, if_neg hr, if_neg ht, if_neg hzero]
    split
    · exact .inr (.inl ⟨trivial, rfl⟩)
    · exact .inr (.inr ⟨⟨hquote, hbackslash⟩, rfl⟩)

/-- How quoted text writes characters. -/
def quotedEscaping : Escaping where
  write := quotedChar
  signs := quotedSigns
  Numbered := fun _ => True
  number := fun c => '\x7b' :: hexDigits c.toNat ++ ['\x7d']
  write_cases := quotedChar_cases
  sign_inj := by decide
  number_inj := by
    intro c d x y _ _ h
    simp only [List.append_assoc, List.cons_append, List.nil_append, List.cons.injEq, true_and] at h
    obtain ⟨hnumber, hrest⟩ := hexDigits_append_inj h
    exact ⟨Char.toNat_inj.1 hnumber, hrest⟩

/-- Quoted text tells the text and where it ends. -/
theorem quoted_append_inj {s t : String} (h : (quoted s).toList ++ x = (quoted t).toList ++ y) :
    s = t ∧ x = y := by
  simp only [quoted, String.toList_ofList, List.cons_append, List.append_assoc,
    List.nil_append] at h
  obtain ⟨hletters, hrest⟩ := quotedEscaping.flatMap_inj (List.cons.inj h).2
  exact ⟨String.toList_inj.1 hletters, hrest⟩

/-- No two texts are quoted alike. -/
theorem quoted_injective : Function.Injective quoted := by
  intro s t h
  have hquoted : (quoted s).toList ++ [] = (quoted t).toList ++ [] := by rw [h]
  exact (quoted_append_inj hquoted).1

end AuditSettings.Text
