/-
AuditSettings.Text.Location — where a character stands in a text.

A location is a line and a column, both counted from one. Only U+000A ends
a line. A column counts UTF-16 units, so a character outside the basic
plane moves the column by two. Text order is line first, column second.

Everything that reads a text carries its location along with `advance`.
`atOffset` is the same count driven by a number of UTF-8 bytes: an offset
that falls inside a character belongs to that character.
-/

namespace AuditSettings.Text

/-- A line and a column, both counted from one. -/
structure Location where
  line : Nat
  column : Nat
deriving DecidableEq, Repr

/-- The number of UTF-16 units that a character takes. -/
def units16 (c : Char) : Nat :=
  if c.toNat < 0x10000 then 1 else 2

/-- The number of UTF-16 units that a text takes. -/
def unitCount : List Char → Nat
  | [] => 0
  | c :: cs => units16 c + unitCount cs

/-- The number of UTF-8 bytes that a text takes. -/
def byteCount : List Char → Nat
  | [] => 0
  | c :: cs => c.utf8Size + byteCount cs

namespace Location

/-- The location of the first character of a text. -/
def origin : Location := ⟨1, 1⟩

/-- The location just after the character `c` that stands at `l`. -/
def advance (l : Location) (c : Char) : Location :=
  if c = '\n' then ⟨l.line + 1, 1⟩ else ⟨l.line, l.column + units16 c⟩

/-- The location just after the characters `cs` that start at `l`. -/
def after (l : Location) (cs : List Char) : Location :=
  cs.foldl advance l

/-- The location of the character that holds byte `n` of the text `cs`,
when `cs` starts at `l`; the end of the text when there is no such byte. -/
def atOffset : Location → List Char → Nat → Location
  | l, [], _ => l
  | l, c :: cs, n => if n < c.utf8Size then l else atOffset (l.advance c) cs (n - c.utf8Size)

/-- One location comes before another when its line does, or on the same
line its column. -/
instance : LT Location where
  lt a b := a.line < b.line ∨ a.line = b.line ∧ a.column < b.column

instance (a b : Location) : Decidable (a < b) :=
  inferInstanceAs (Decidable (a.line < b.line ∨ a.line = b.line ∧ a.column < b.column))

/-- The one of two locations that comes first in the text. -/
def earlier (a b : Location) : Location := if b < a then b else a

/-- The one of two locations that comes last in the text. -/
def later (a b : Location) : Location := if a < b then b else a

/-- A location as diagnostics write it: line, colon, column. -/
def text (l : Location) : String := s!"{l.line}:{l.column}"

theorem text_eq (l : Location) : l.text = toString l.line ++ ":" ++ toString l.column := by
  simp only [text]
  rfl

@[simp] theorem after_nil (l : Location) : l.after [] = l := rfl

@[simp] theorem after_cons (l : Location) (c : Char) (cs : List Char) :
    l.after (c :: cs) = (l.advance c).after cs := rfl

theorem after_append (l : Location) (cs ds : List Char) :
    l.after (cs ++ ds) = (l.after cs).after ds := by
  simp [after]

/-- The line is told by the line breaks alone. -/
theorem line_after (l : Location) (cs : List Char) :
    (l.after cs).line = l.line + cs.count '\n' := by
  induction cs generalizing l with
  | nil => simp
  | cons c cs ih =>
    rw [after_cons, ih, advance]
    by_cases h : c = '\n'
    · simp only [h, ↓reduceIte, List.count_cons_self]
      omega
    · simp [h]

/-- Where no line ends, the column grows by what is passed. -/
theorem after_of_not_mem (l : Location) {cs : List Char} (h : '\n' ∉ cs) :
    l.after cs = ⟨l.line, l.column + unitCount cs⟩ := by
  induction cs generalizing l with
  | nil => rfl
  | cons c cs ih =>
    rw [List.mem_cons, not_or] at h
    rw [after_cons, ih _ h.2, advance, if_neg (Ne.symm h.1), unitCount, Nat.add_assoc]

theorem lt_iff {a b : Location} :
    a < b ↔ a.line < b.line ∨ a.line = b.line ∧ a.column < b.column := Iff.rfl

theorem lt_trans {a b c : Location} (h : a < b) (h' : b < c) : a < c := by
  rw [lt_iff] at *
  omega

theorem not_lt_self (a : Location) : ¬ a < a := by
  rw [lt_iff]
  omega

theorem not_lt_of_lt {a b : Location} (h : a < b) : ¬ b < a := fun h' =>
  not_lt_self a (lt_trans h h')

theorem lt_or_eq_or_gt (a b : Location) : a < b ∨ a = b ∨ b < a := by
  cases a
  cases b
  simp only [lt_iff, mk.injEq]
  omega

theorem earlier_eq_left {a b : Location} (h : ¬ b < a) : a.earlier b = a := if_neg h

theorem earlier_eq_or (a b : Location) : a.earlier b = a ∨ a.earlier b = b := by
  unfold earlier
  split
  · exact .inr rfl
  · exact .inl rfl

/-- A step through the text always moves on. -/
theorem lt_advance (l : Location) (c : Char) : l < l.advance c := by
  show l.line < (l.advance c).line ∨ l.line = (l.advance c).line ∧ l.column < (l.advance c).column
  unfold advance units16
  split
  · exact .inl (Nat.lt_succ_self _)
  · right
    split <;> simp

/-- An offset past the end of a text is an offset into what follows it. -/
theorem atOffset_append (l : Location) (cs ds : List Char) (n : Nat) :
    l.atOffset (cs ++ ds) (byteCount cs + n) = (l.after cs).atOffset ds n := by
  induction cs generalizing l with
  | nil => simp [byteCount]
  | cons c cs ih =>
    have h : ¬ (c.utf8Size + byteCount cs + n < c.utf8Size) := by omega
    have h' : c.utf8Size + byteCount cs + n - c.utf8Size = byteCount cs + n := by omega
    simp only [List.cons_append, atOffset, byteCount, h, ↓reduceIte, h', ih, after_cons]

end Location
end AuditSettings.Text
