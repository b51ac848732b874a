/-
AuditSettings.Proofs.Toml.Stops — readings that end at a line break or a
closing bracket.

No reading but that of a line break, a comment or a string goes past a line
break, and none that can begin a bare key goes past a closing bracket. Such a
reading has the length that it has where the text ends at that character
(`StopsAt`), whatever comes after. Composed readings are put together from
simpler ones by `drop`, and a reading that asks for fixed characters in front
is taken apart by `of_front`.
-/
import AuditSettings.Toml.Token.Span
import Mathlib.Data.List.Find

namespace AuditSettings.Toml

/-! ## Where readings stop -/

/-- A line feed, a carriage return or a closing bracket. -/
def IsStop (c : Char) : Prop := c = '\n' ∨ c = '\r' ∨ c = ']'

/-- A reading that ends where the text ends or this character stands. -/
structure StopsAt (stop : Char) (f : List Char → Nat) : Prop where
  le_length : ∀ u, f u ≤ u.length
  append : ∀ u v, f (u ++ stop :: v) = f u

section

variable {stop : Char}

theorem IsStop.isBare (h : IsStop stop) : isBare stop = false := by
  rcases h with rfl | rfl | rfl <;> rfl

theorem IsStop.isDigit (h : IsStop stop) : stop.isDigit = false := by
  rcases h with rfl | rfl | rfl <;> rfl

theorem stopsAt_takeWhile {p : Char → Bool} (h : p stop = false) :
    StopsAt stop fun cs => (cs.takeWhile p).length where
  le_length u := (List.takeWhile_prefix p).length_le
  append u v := by
    induction u with
    | nil => simp [h]
    | cons c u ih =>
      simp only [List.cons_append, List.takeWhile_cons]
      split
      · simpa using ih
      · rfl

namespace StopsAt

variable {f g : List Char → Nat}

/-- What is left after the reading still goes on to where it stops. -/
theorem drop (h : StopsAt stop f) (u v : List Char) :
    (u ++ stop :: v).drop (f u) = u.drop (f u) ++ stop :: v :=
  List.drop_append_of_le_length (h.le_length u)

/-- A reading that asks for fixed characters in front, none of which it stops
at, stops where the reading of what follows them does. -/
theorem of_front (hle : ∀ u, f u ≤ u.length)
    (h : ∀ cs, f cs ≠ 0 → ∃ (front rest : List Char) (g : List Char → Nat),
      cs = front ++ rest ∧ stop ∉ front ∧ (∀ u v, g (u ++ stop :: v) = g u) ∧
        ∀ x, f (front ++ x) = g x) : StopsAt stop f where
  le_length := hle
  append u v := by
    by_cases hne : f (u ++ stop :: v) = 0
    · by_cases hu : f u = 0
      · rw [hne, hu]
      · obtain ⟨front, rest, g, rfl, -, hg, hfg⟩ := h u hu
        rw [List.append_assoc, hfg, hg, hfg]
    · obtain ⟨front, rest, g, hsplit, hfront, hg, hfg⟩ := h _ hne
      -- what is in front is in front of `u` too, as it ends before the stop
      obtain ⟨rest', rfl⟩ : front <+: u := by
        rcases List.prefix_or_prefix_of_prefix (List.prefix_append u (stop :: v))
          ⟨rest, hsplit.symm⟩ with hpre | hpre
        · obtain ⟨more, rfl⟩ := hpre
          cases more with
          | nil => simp
          | cons c more =>
            simp only [List.append_assoc, List.cons_append, List.append_cancel_left_eq,
              List.cons.injEq] at hsplit
            exact absurd (by simp [hsplit.1]) hfront
        · exact hpre
      rw [List.append_assoc, hfg, hg, hfg]

end StopsAt

/-! ## White space, comments and single characters -/

theorem stopsAt_blank (h : IsStop stop) : StopsAt stop blankLength :=
  stopsAt_takeWhile (by rcases h with rfl | rfl | rfl <;> rfl)

theorem stopsAt_comment (h : stop = '\n' ∨ stop = '\r') : StopsAt stop commentLength := by
  have hrest : StopsAt stop fun cs => (cs.takeWhile fun c => c ≠ '\n' && c ≠ '\r').length :=
    stopsAt_takeWhile (by rcases h with rfl | rfl <;> rfl)
  refine ⟨fun u => ?_, fun u v => ?_⟩
  · unfold commentLength
    split
    · next cs => simpa using hrest.le_length cs
    · simp
  · cases u with
    | nil => rcases h with rfl | rfl <;> rfl
    | cons c u =>
      by_cases hc : c = '#'
      · subst hc
        exact congrArg (· + 1) (hrest.append u v)
      · simp [commentLength, hc]

theorem stopsAt_char {mark : Char} (h : mark ≠ stop) : StopsAt stop (charLength mark) := by
  refine ⟨fun u => ?_, fun u v => ?_⟩
  · cases u with
    | nil => exact Nat.le_refl 0
    | cons c u =>
      simp only [charLength, List.length_cons]
      split <;> omega
  · cases u with
    | nil => simp [charLength, h.symm]
    | cons c u => rfl

/-! ## Words -/

theorem isPrefixOf_append_stop {w : List Char} (hw : stop ∉ w) (u v : List Char) :
    w.isPrefixOf (u ++ stop :: v) = w.isPrefixOf u := by
  induction w generalizing u with
  | nil => simp
  | cons c w ih =>
    simp only [List.mem_cons, not_or] at hw
    cases u with
    | nil => simp [List.isPrefixOf, Ne.symm hw.1]
    | cons d u => simp only [List.cons_append, List.isPrefixOf, ih hw.2]

theorem stopsAt_word {words : List (List Char)} (h : ∀ w ∈ words, stop ∉ w) :
    StopsAt stop (wordLength words) := by
  refine ⟨fun u => ?_, fun u v => ?_⟩
  · unfold wordLength
    split
    · next w hw =>
      have hpre : w.isPrefixOf u = true := List.find?_some (p := fun w : List Char => w.isPrefixOf u) hw
      exact (List.isPrefixOf_iff_prefix.1 hpre).length_le
    · exact Nat.zero_le _
  · have hfind : words.find? (fun w => w.isPrefixOf (u ++ stop :: v)) =
        words.find? fun w => w.isPrefixOf u :=
      List.find?_congr fun w hw => isPrefixOf_append_stop (h w hw) u v
    rw [wordLength, hfind, wordLength]

theorem not_mem_of_isBare (h : IsStop stop) {words : List (List Char)}
    (hw : words.all (fun w => w.all isBare) = true) : ∀ w ∈ words, stop ∉ w := by
  intro w hmem hstop
  have := List.all_eq_true.1 (List.all_eq_true.1 hw w hmem) stop hstop
  rw [h.isBare] at this
  cases this

theorem stopsAt_boolean (h : IsStop stop) : StopsAt stop booleanLength :=
  stopsAt_word (not_mem_of_isBare h rfl)

/-! ## Bare keys -/

theorem stopsAt_bare (h : IsStop stop) : StopsAt stop bareLength := stopsAt_takeWhile h.isBare

theorem stopsAt_glob (h : IsStop stop) : StopsAt stop globLength :=
  stopsAt_takeWhile (by rcases h with rfl | rfl | rfl <;> rfl)

/-! ## Numbers -/

theorem stopsAt_sign (h : IsStop stop) : StopsAt stop signLength := by
  refine ⟨fun u => ?_, fun u v => ?_⟩
  · cases u with
    | nil => exact Nat.le_refl 0
    | cons c u =>
      simp only [signLength, List.length_cons]
      split <;> omega
  · cases u with
    | nil => rcases h with rfl | rfl | rfl <;> rfl
    | cons c u => rfl

theorem stopsAt_digits (h : IsStop stop) : StopsAt stop digitsLength :=
  stopsAt_takeWhile (by rcases h with rfl | rfl | rfl <;> rfl)

theorem stopsAt_integer (h : IsStop stop) : StopsAt stop integerLength := by
  refine ⟨fun u => ?_, fun u v => ?_⟩
  · have hsign := (stopsAt_sign h).le_length u
    have hdigits := (stopsAt_digits h).le_length (u.drop (signLength u))
    rw [List.length_drop] at hdigits
    simp only [integerLength]
    split <;> omega
  · simp only [integerLength, (stopsAt_sign h).append, (stopsAt_sign h).drop,
      (stopsAt_digits h).append]

theorem stopsAt_point (h : IsStop stop) : StopsAt stop pointLength := by
  refine ⟨fun u => ?_, fun u v => ?_⟩
  · unfold pointLength
    split
    · next cs =>
      have := (stopsAt_digits h).le_length cs
      simp only [List.length_cons]
      split <;> omega
    · exact Nat.zero_le _
  · cases u with
    | nil => rcases h with rfl | rfl | rfl <;> rfl
    | cons c u =>
      by_cases hc : c = '.'
      · subst hc
        simp only [List.cons_append, pointLength, (stopsAt_digits h).append]
      · simp [pointLength, hc]

theorem stopsAt_power (h : IsStop stop) : StopsAt stop powerLength := by
  refine ⟨fun u => ?_, fun u v => ?_⟩
  · cases u with
    | nil => exact Nat.le_refl 0
    | cons c u =>
      have := (stopsAt_integer h).le_length u
      simp only [powerLength, List.length_cons]
      split <;> omega
  · cases u with
    | nil => rcases h with rfl | rfl | rfl <;> rfl
    | cons c u => simp only [List.cons_append, powerLength, (stopsAt_integer h).append]

theorem stopsAt_float (h : IsStop stop) : StopsAt stop floatLength := by
  have hword : StopsAt stop (wordLength [['n', 'a', 'n'], ['i', 'n', 'f']]) :=
    stopsAt_word (not_mem_of_isBare h rfl)
  have hwhole := stopsAt_integer h
  have hpoint := stopsAt_point h
  have hpart (u : List Char) : integerLength u + pointLength (u.drop (integerLength u)) ≤ u.length := by
    have h₁ := hwhole.le_length u
    have h₂ := hpoint.le_length (u.drop (integerLength u))
    rw [List.length_drop] at h₂
    omega
  refine ⟨fun u => ?_, fun u v => ?_⟩
  · have hsign := (stopsAt_sign h).le_length u
    have h₁ := hword.le_length (u.drop (signLength u))
    have h₂ := hpart u
    have h₃ := (stopsAt_power h).le_length
      (u.drop (integerLength u + pointLength (u.drop (integerLength u))))
    rw [List.length_drop] at h₁ h₃
    simp only [floatLength]
    split
    · omega
    · split <;> omega
  · simp only [floatLength, (stopsAt_sign h).append, (stopsAt_sign h).drop, hword.append,
      hwhole.append, hwhole.drop, hpoint.append, List.drop_append_of_le_length (hpart u),
      (stopsAt_power h).append]

theorem stopsAt_radix (h : IsStop stop) {letter : Char} {digit : Char → Bool}
    (hletter : letter ≠ stop) (hdigit : digit stop = false) :
    StopsAt stop (radixLength letter digit) := by
  have hdigits : StopsAt stop fun cs => (cs.takeWhile fun d => digit d || d = '_').length :=
    stopsAt_takeWhile (by rcases h with rfl | rfl | rfl <;> simp [hdigit])
  refine .of_front (fun u => ?_) fun cs hcs => ?_
  · unfold radixLength
    split
    · next c cs =>
      have := hdigits.le_length cs
      simp only [List.length_cons]
      split <;> omega
    · exact Nat.zero_le _
  · unfold radixLength at hcs
    split at hcs
    · next c cs =>
      obtain rfl : c = letter := Decidable.byContradiction fun hc => by simp [hc] at hcs
      refine ⟨['0', c], cs, fun x => radixLength c digit ('0' :: c :: x), rfl, ?_, fun u v => ?_,
        fun x => rfl⟩
      · rcases h with rfl | rfl | rfl <;> simp [hletter.symm]
      · have hsame := hdigits.append u v
        simp only [radixLength, hsame]
    · exact absurd rfl hcs

/-! ## Days and times -/

theorem twoDigits?_eq_some {a b : Char} {n : Nat} (h : twoDigits? a b = some n) :
    a.isDigit = true ∧ b.isDigit = true := by
  unfold twoDigits? at h
  split at h
  · next hd => simpa using hd
  · cases h

/-- A digit is no place to stop. -/
theorem IsStop.ne_of_isDigit (h : IsStop stop) {c : Char} (hc : c.isDigit = true) : stop ≠ c := by
  rintro rfl
  rw [h.isDigit] at hc
  cases hc

theorem stopsAt_date (h : IsStop stop) : StopsAt stop dateLength := by
  refine .of_front (fun u => ?_) fun cs hcs => ?_
  · unfold dateLength
    repeat' split
    all_goals simp
  · unfold dateLength at hcs
    split at hcs
    · next y₁ y₂ y₃ y₄ m₁ m₂ d₁ d₂ rest =>
      split at hcs
      · next century year month day hc hy hm hd =>
        split at hcs
        · next hday =>
          refine ⟨[y₁, y₂, y₃, y₄, '-', m₁, m₂, '-', d₁, d₂], rest, fun _ => 10, rfl, ?_,
            fun u v => rfl, fun x => ?_⟩
          · have hdash : stop ≠ '-' := by rcases h with rfl | rfl | rfl <;> decide
            simp [h.ne_of_isDigit (twoDigits?_eq_some hc).1, h.ne_of_isDigit (twoDigits?_eq_some hc).2,
              h.ne_of_isDigit (twoDigits?_eq_some hy).1, h.ne_of_isDigit (twoDigits?_eq_some hy).2,
              h.ne_of_isDigit (twoDigits?_eq_some hm).1, h.ne_of_isDigit (twoDigits?_eq_some hm).2,
              h.ne_of_isDigit (twoDigits?_eq_some hd).1, h.ne_of_isDigit (twoDigits?_eq_some hd).2,
              hdash]
          · simp only [List.cons_append, List.nil_append, dateLength, hc, hy, hm, hd]
            exact if_pos hday
        · exact absurd rfl hcs
      · exact absurd rfl hcs
    · exact absurd rfl hcs

theorem stopsAt_secondsFraction (h : IsStop stop) : StopsAt stop secondsFractionLength := by
  have hdigits : StopsAt stop fun cs => (cs.takeWhile Char.isDigit).length :=
    stopsAt_takeWhile h.isDigit
  refine ⟨fun u => ?_, fun u v => ?_⟩
  · cases u with
    | nil => exact Nat.le_refl 0
    | cons c u =>
      have := hdigits.le_length u
      simp only [secondsFractionLength, List.length_cons]
      split <;> omega
  · cases u with
    | nil => rcases h with rfl | rfl | rfl <;> simp [secondsFractionLength]
    | cons c u =>
      have hsame := hdigits.append u v
      simp only [List.cons_append, secondsFractionLength, hsame]

theorem stopsAt_time (h : IsStop stop) : StopsAt stop timeLength := by
  have hfraction := stopsAt_secondsFraction h
  refine .of_front (fun u => ?_) fun cs hcs => ?_
  · unfold timeLength
    split
    · next cs =>
      have := hfraction.le_length cs
      split
      · split
        · simp only [List.length_cons]
          omega
        · exact Nat.zero_le _
      · exact Nat.zero_le _
    · exact Nat.zero_le _
  · unfold timeLength at hcs
    split at hcs
    · next h₁ h₂ m₁ m₂ s₁ s₂ rest =>
      split at hcs
      · next hour minute second hh hm hs =>
        refine ⟨[h₁, h₂, ':', m₁, m₂, ':', s₁, s₂], rest,
          fun x => timeLength (h₁ :: h₂ :: ':' :: m₁ :: m₂ :: ':' :: s₁ :: s₂ :: x), rfl, ?_,
          fun u v => ?_, fun x => rfl⟩
        · have hcolon : stop ≠ ':' := by rcases h with rfl | rfl | rfl <;> decide
          simp [h.ne_of_isDigit (twoDigits?_eq_some hh).1, h.ne_of_isDigit (twoDigits?_eq_some hh).2,
            h.ne_of_isDigit (twoDigits?_eq_some hm).1, h.ne_of_isDigit (twoDigits?_eq_some hm).2,
            h.ne_of_isDigit (twoDigits?_eq_some hs).1, h.ne_of_isDigit (twoDigits?_eq_some hs).2,
            hcolon]
        · simp only [timeLength, hfraction.append]
      · exact absurd rfl hcs
    · exact absurd rfl hcs

theorem stopsAt_offset (h : IsStop stop) : StopsAt stop offsetLength := by
  refine .of_front (fun u => ?_) fun cs hcs => ?_
  · unfold offsetLength
    repeat' split
    all_goals simp
  · unfold offsetLength at hcs
    split at hcs
    · next rest =>
      exact ⟨['Z'], rest, fun _ => 1, rfl, by rcases h with rfl | rfl | rfl <;> decide, fun _ _ => rfl,
        fun x => rfl⟩
    · next rest =>
      exact ⟨['z'], rest, fun _ => 1, rfl, by rcases h with rfl | rfl | rfl <;> decide, fun _ _ => rfl,
        fun x => rfl⟩
    · next sign h₁ h₂ m₁ m₂ rest hZ hz =>
      split at hcs
      · next hour minute hh hm =>
        split at hcs
        · next hall =>
          refine ⟨[sign, h₁, h₂, ':', m₁, m₂], rest,
            fun x => offsetLength (sign :: h₁ :: h₂ :: ':' :: m₁ :: m₂ :: x), rfl, ?_,
            fun u v => ?_, fun x => rfl⟩
          · have hsign : stop ≠ sign := by
              rintro rfl
              rcases h with rfl | rfl | rfl <;> simp at hall
            have hcolon : stop ≠ ':' := by rcases h with rfl | rfl | rfl <;> decide
            simp [hsign, hcolon, h.ne_of_isDigit (twoDigits?_eq_some hh).1,
              h.ne_of_isDigit (twoDigits?_eq_some hh).2, h.ne_of_isDigit (twoDigits?_eq_some hm).1,
              h.ne_of_isDigit (twoDigits?_eq_some hm).2]
          · simp [offsetLength, hh, hm]
        · exact absurd rfl hcs
      · exact absurd rfl hcs
    · exact absurd rfl hcs

theorem dateLength_eq_or (cs : List Char) : dateLength cs = 0 ∨ dateLength cs = 10 := by
  unfold dateLength
  repeat' split
  all_goals simp

theorem stopsAt_datetime (h : IsStop stop) : StopsAt stop datetimeLength := by
  have hdate := stopsAt_date h
  have htime := stopsAt_time h
  have hten (u : List Char) (hu : dateLength u ≠ 0) : 10 ≤ u.length := by
    have := hdate.le_length u
    rcases dateLength_eq_or u with h₀ | h₁₀ <;> omega
  refine ⟨fun u => ?_, fun u v => ?_⟩
  · unfold datetimeLength
    split
    · exact htime.le_length u
    · next hu =>
      have hlength := hten u hu
      split
      · next c rest hrest =>
        have h₁ := congrArg List.length hrest
        have h₂ := htime.le_length rest
        have h₃ := (stopsAt_offset h).le_length (rest.drop (timeLength rest))
        simp only [List.length_drop, List.length_cons] at h₁ h₃
        simp only
        split <;> omega
      · exact hlength
  · unfold datetimeLength
    rw [hdate.append]
    split
    · exact htime.append u v
    · next hu =>
      rw [List.drop_append_of_le_length (hten u hu)]
      cases u.drop 10 with
      | nil => rcases h with rfl | rfl | rfl <;> simp
      | cons c rest =>
        simp only [List.cons_append, htime.append, htime.drop, (stopsAt_offset h).append]

end

end AuditSettings.Toml
