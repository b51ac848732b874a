/-
AuditSettings.Proofs.Text.QuotedWords — the words that a text has between quotes.

A word with nothing in it that asks for an escape stands between its quotes
as it is (`toList_quoted`). Where such words are listed, and the text before
them and between them has no quote, cutting the text at its quotes gets the
words back (`quotedWords_append`).
-/
import AuditSettings.Text.Quoted
import AuditSettings.Text.Split
import Mathlib.Data.List.Basic

namespace AuditSettings.Text

/-! ## Words written as they are -/

/-- Whether a character is one of ASCII that needs no escape between quotes. -/
def isShown (c : Char) : Bool := 0x20 ≤ c.toNat && c.toNat < 0x7f && c != '"' && c != '\\'

theorem isHidden_of_isShown {c : Char} (h : isShown c = true) : isHidden c = false := by
  -- what is hidden is below the blank or above the tilde
  have hranges : ∀ r ∈ hiddenRanges, r.2 < 0x20 ∨ 0x7f ≤ r.1 := by decide +kernel
  simp only [isShown, Bool.and_eq_true, decide_eq_true_eq] at h
  rw [isHidden, List.any_eq_false]
  rintro ⟨first, last⟩ hmem
  have hrange := hranges _ hmem
  simp only [Bool.and_eq_true, decide_eq_true_eq, not_and]
  omega

theorem quotedChar_of_isShown {c : Char} (h : isShown c = true) : quotedChar c = [c] := by
  have hhidden := isHidden_of_isShown h
  simp only [isShown, Bool.and_eq_true, decide_eq_true_eq, bne_iff_ne] at h
  obtain ⟨⟨⟨hlow, -⟩, hquote⟩, hbackslash⟩ := h
  have hcontrol : ∀ d : Char, d.toNat < 0x20 → c ≠ d := by
    rintro d hd rfl
    omega
  rw [quotedChar, if_neg hquote, if_neg hbackslash, if_neg (hcontrol _ (by decide)),
    if_neg (hcontrol _ (by decide)), if_neg (hcontrol _ (by decide)), if_neg (by omega), hhidden]
  rfl

theorem toList_quoted {s : String} (h : s.toList.all isShown = true) :
    (quoted s).toList = '"' :: (s.toList ++ ['"']) := by
  have hletters : s.toList.flatMap quotedChar = s.toList := by
    rw [List.flatMap_congr fun c hc => quotedChar_of_isShown (List.all_eq_true.1 h c hc)]
    simp
  rw [quoted, hletters, String.toList_ofList, List.cons_append]

theorem quote_not_mem_of_isShown {cs : List Char} (h : cs.all isShown = true) : '"' ∉ cs := by
  intro hmem
  exact absurd (List.all_eq_true.1 h _ hmem) (by decide)

/-! ## Cutting at the quotes -/

/-- Every other item of a list, from the second on. -/
def everySecond {α : Type} : List α → List α
  | _ :: x :: xs => x :: everySecond xs
  | _ => []

/-- The words that a text has between quotes. -/
def quotedWords (text : String) : List String :=
  (everySecond (pieces '"' text.toList)).map String.ofList

/-- A list of words, each between two marks, is told by what the marks
enclose. The induction is on the words; what stands before the next one is
first the beginning of the text, and then the separator. -/
theorem everySecond_pieces {mark : Char} {before sep : List Char} {words : List (List Char)}
    (hbefore : mark ∉ before) (hsep : mark ∉ sep) (hwords : ∀ w ∈ words, mark ∉ w) :
    everySecond (pieces mark
      (before ++ sep.intercalate (words.map fun w => mark :: (w ++ [mark])))) = words := by
  induction words generalizing before with
  | nil => simp [pieces_of_not_mem hbefore, everySecond]
  | cons w words ih =>
    obtain ⟨hw, hwords⟩ := List.forall_mem_cons.1 hwords
    cases words with
    | nil =>
      rw [List.map_singleton, List.intercalate_singleton, pieces_append_cons hbefore,
        pieces_append_cons hw]
      rfl
    | cons w' words =>
      have hrest := ih hsep hwords
      rw [List.map_cons] at hrest
      rw [List.map_cons, List.map_cons, List.intercalate_cons_cons, List.append_assoc,
        List.cons_append, List.append_assoc, List.singleton_append, pieces_append_cons hbefore,
        pieces_append_cons hw, everySecond, hrest]

/-- The quoted words of a list of words that are written as they are. -/
theorem quotedWords_append {front sep : String} {words : List String} (hfront : '"' ∉ front.toList)
    (hsep : '"' ∉ sep.toList) (h : ∀ w ∈ words, w.toList.all isShown = true) :
    quotedWords (front ++ sep.intercalate (words.map quoted)) = words := by
  have hquoted : (words.map quoted).map String.toList =
      (words.map String.toList).map fun w => '"' :: (w ++ ['"']) := by
    rw [List.map_map, List.map_map]
    exact List.map_congr_left fun w hw => toList_quoted (h w hw)
  have hmarks : ∀ w ∈ words.map String.toList, '"' ∉ w := by
    rw [List.forall_mem_map]
    exact fun w hw => quote_not_mem_of_isShown (h w hw)
  rw [quotedWords, String.toList_append, String.toList_intercalate, hquoted,
    everySecond_pieces hfront hsep hmarks]
  simp [Function.comp_def]

end AuditSettings.Text
