/-
AuditSettings.Text.Split — cutting a text at a mark.

`splitOnce` cuts at the first mark only; `pieces` cuts at every mark, so
there is always one piece more than there are marks. The marks themselves
are in no piece.
-/

namespace AuditSettings.Text

/-- What precedes the first mark and what follows it, when there is one. -/
def splitOnce (mark : Char) : List Char → Option (List Char × List Char)
  | [] => none
  | c :: cs =>
    if c = mark then some ([], cs)
    else (splitOnce mark cs).map fun (before, rest) => (c :: before, rest)

/-- The pieces of a text between the marks in it. -/
def pieces (mark : Char) : List Char → List (List Char)
  | [] => [[]]
  | c :: cs =>
    if c = mark then [] :: pieces mark cs
    else
      match pieces mark cs with
      | piece :: rest => (c :: piece) :: rest
      | [] => [[c]]

/-- Cutting once finds the first mark, and loses nothing but it. -/
theorem splitOnce_eq_some_iff {mark : Char} {cs before rest : List Char} :
    splitOnce mark cs = some (before, rest) ↔ cs = before ++ mark :: rest ∧ mark ∉ before := by
  induction cs generalizing before with
  | nil => simp [splitOnce]
  | cons c cs ih =>
    by_cases h : c = mark
    · subst h
      cases before with
      | nil => simp [splitOnce]
      | cons b bs =>
        simp only [splitOnce, ↓reduceIte, Option.some.injEq, Prod.mk.injEq, List.nil_eq,
          reduceCtorEq, false_and, List.cons_append, List.cons.injEq, List.mem_cons, not_or,
          false_iff]
        rintro ⟨⟨rfl, -⟩, hb, -⟩
        exact hb rfl
    · cases before with
      | nil => simp [splitOnce, h]
      | cons b bs =>
        simp only [splitOnce, h, ↓reduceIte, Option.map_eq_some_iff, Prod.mk.injEq,
          List.cons.injEq, Prod.exists, List.cons_append, List.mem_cons, not_or]
        constructor
        · rintro ⟨x, y, hxy, ⟨rfl, rfl⟩, rfl⟩
          obtain ⟨rfl, hm⟩ := ih.1 hxy
          exact ⟨⟨rfl, rfl⟩, Ne.symm h, hm⟩
        · rintro ⟨⟨rfl, rfl⟩, -, hm⟩
          exact ⟨bs, rest, ih.2 ⟨rfl, hm⟩, ⟨rfl, rfl⟩, rfl⟩

/-- A text has at least one piece. -/
theorem pieces_ne_nil (mark : Char) (cs : List Char) : pieces mark cs ≠ [] := by
  cases cs with
  | nil => simp [pieces]
  | cons c cs =>
    unfold pieces
    split
    · simp
    · split <;> simp

/-- The pieces with the marks put back are the text. -/
theorem intercalate_pieces (mark : Char) (cs : List Char) :
    [mark].intercalate (pieces mark cs) = cs := by
  induction cs with
  | nil => rfl
  | cons c cs ih =>
    unfold pieces
    split
    · next h =>
      subst h
      cases hp : pieces c cs with
      | nil => exact absurd hp (pieces_ne_nil c cs)
      | cons piece rest =>
        rw [hp] at ih
        simp only [List.intercalate, List.intersperse, List.flatten_cons] at ih ⊢
        simp [ih]
    · split
      · next piece rest hp =>
        rw [hp] at ih
        cases rest with
        | nil => simpa [List.intercalate] using ih
        | cons q rest => simpa [List.intercalate, List.intersperse] using ih
      · next hp => exact absurd hp (pieces_ne_nil mark cs)

/-- No piece holds a mark. -/
theorem not_mem_of_mem_pieces {mark : Char} {cs piece : List Char} (h : piece ∈ pieces mark cs) :
    mark ∉ piece := by
  induction cs generalizing piece with
  | nil =>
    simp only [pieces, List.mem_singleton] at h
    simp [h]
  | cons c cs ih =>
    unfold pieces at h
    split at h
    · rcases List.mem_cons.1 h with rfl | h
      · simp
      · exact ih h
    · next hc =>
      split at h
      · next p rest hp =>
        rw [hp] at ih
        rcases List.mem_cons.1 h with rfl | h
        · simp only [List.mem_cons, not_or]
          exact ⟨Ne.symm hc, ih List.mem_cons_self⟩
        · exact ih (List.mem_cons_of_mem _ h)
      · next hp => exact absurd hp (pieces_ne_nil mark cs)

/-- A text without a mark is one piece. -/
theorem pieces_of_not_mem {mark : Char} {cs : List Char} (h : mark ∉ cs) :
    pieces mark cs = [cs] := by
  induction cs with
  | nil => rfl
  | cons c cs ih =>
    rw [List.mem_cons, not_or] at h
    rw [pieces, if_neg (Ne.symm h.1), ih h.2]

/-- What precedes a mark and what follows it are cut each for itself. -/
theorem pieces_append (mark : Char) (cs rest : List Char) :
    pieces mark (cs ++ mark :: rest) = pieces mark cs ++ pieces mark rest := by
  induction cs with
  | nil => simp [pieces]
  | cons c cs ih =>
    rw [List.cons_append, pieces, pieces, ih]
    split
    · rfl
    · cases hp : pieces mark cs with
      | nil => exact absurd hp (pieces_ne_nil mark cs)
      | cons piece pieces => rfl

/-- What precedes the first mark is the first piece. -/
theorem pieces_append_cons {mark : Char} {cs rest : List Char} (h : mark ∉ cs) :
    pieces mark (cs ++ mark :: rest) = cs :: pieces mark rest := by
  rw [pieces_append, pieces_of_not_mem h, List.singleton_append]

/-- Rows without a mark, with marks put between them, are cut at these marks
again. -/
theorem pieces_intercalate {mark : Char} {ps : List (List Char)} (hne : ps ≠ [])
    (h : ∀ p ∈ ps, mark ∉ p) : pieces mark ([mark].intercalate ps) = ps := by
  induction ps with
  | nil => exact absurd rfl hne
  | cons p ps ih =>
    obtain ⟨hp, hps⟩ := List.forall_mem_cons.1 h
    cases ps with
    | nil => simpa [List.intercalate] using pieces_of_not_mem hp
    | cons q qs =>
      have htail : [mark].intercalate (p :: q :: qs) = p ++ mark :: [mark].intercalate (q :: qs) := by
        simp [List.intercalate, List.intersperse]
      rw [htail, pieces_append_cons hp, ih (by simp) hps]

/-- The pieces of a text are the only rows without a mark that are the text
with marks put between them. -/
theorem pieces_eq_iff {mark : Char} {cs : List Char} {ps : List (List Char)} (hne : ps ≠ []) :
    pieces mark cs = ps ↔ cs = [mark].intercalate ps ∧ ∀ p ∈ ps, mark ∉ p := by
  constructor
  · rintro rfl
    exact ⟨(intercalate_pieces mark cs).symm, fun p hp => not_mem_of_mem_pieces hp⟩
  · rintro ⟨rfl, h⟩
    exact pieces_intercalate hne h

/-- What is read while a property holds ends where the property does. -/
theorem takeWhile_append_of_stop {p : Char → Bool} {w rest : List Char} (hw : ∀ c ∈ w, p c = true)
    (hrest : ∀ c ∈ rest.head?, p c = false) : (w ++ rest).takeWhile p = w := by
  rw [List.takeWhile_append_of_pos hw]
  cases rest with
  | nil => simp
  | cons c rest => simp [hrest c rfl]

/-- What follows is left. -/
theorem dropWhile_append_of_stop {p : Char → Bool} {w rest : List Char} (hw : ∀ c ∈ w, p c = true)
    (hrest : ∀ c ∈ rest.head?, p c = false) : (w ++ rest).dropWhile p = rest := by
  rw [List.dropWhile_append_of_pos hw]
  cases rest with
  | nil => rfl
  | cons c rest => simp [hrest c rfl]

end AuditSettings.Text
