/-
AuditSettings.Proofs.Toml.Row — rows of words and the tokens they make.

A word is a kind with the characters of one token, and a row of words is
laid out by giving every word the location at which the words before it
end. `scan_eq_layOut` says that the tokens of any text are such a row, so
each begins where the one before it ends. `scanFrom_row` goes the other way:
a row whose words do not run into each other is cut exactly at its seams.

What a word runs into depends on the character after it alone. `IsWord`
says of a kind and its characters that they make a token before anything
that `Kind.endsBefore` allows, and `Row` asks this of every word with the
word after it.
-/
import AuditSettings.Toml.Token.Scan

namespace AuditSettings.Toml

open AuditSettings.Text

/-- The kind of a token and the characters it is written with. -/
abbrev Word := Kind × List Char

/-- The text of a row of words. -/
def lettering (ws : List Word) : List Char := ws.flatMap Prod.snd

@[simp] theorem lettering_nil : lettering [] = [] := rfl

@[simp] theorem lettering_cons (w : Word) (ws : List Word) :
    lettering (w :: ws) = w.2 ++ lettering ws := rfl

@[simp] theorem lettering_append (ws vs : List Word) :
    lettering (ws ++ vs) = lettering ws ++ lettering vs := by
  simp [lettering]

/-- The tokens that a row of words makes from a location on. -/
def layOut : Location → List Word → List Token
  | _, [] => []
  | l, (k, cs) :: ws => ⟨k, cs, l⟩ :: layOut (l.after cs) ws

theorem layOut_append (l : Location) (ws vs : List Word) :
    layOut l (ws ++ vs) = layOut l ws ++ layOut (l.after (lettering ws)) vs := by
  induction ws generalizing l with
  | nil => rfl
  | cons w ws ih =>
    obtain ⟨k, cs⟩ := w
    simp [layOut, ih, Location.after_append]

/-! ## Cutting a text -/

/-- The kind and the characters of a token. -/
def Token.word (t : Token) : Word := (t.kind, t.text)

theorem scanFrom_eq_layOut (l : Location) (inside : Nat) (cs : List Char) :
    Token.scanFrom l inside cs =
      layOut (l.after (cs.take inside)) ((Token.scanFrom l inside cs).map Token.word) := by
  induction cs generalizing l inside with
  | nil => cases inside <;> rfl
  | cons c cs ih =>
    cases inside with
    | succ inside => exact ih (l.advance c) inside
    | zero =>
      obtain ⟨k, n, hlex⟩ : ∃ k n, lexeme (c :: cs) = (k, n + 1) :=
        ⟨(lexeme (c :: cs)).1, (lexeme (c :: cs)).2 - 1, by
          have := lexeme_pos (c :: cs)
          ext1 <;> simp
          omega⟩
      simp only [Token.scanFrom, hlex, List.map_cons, Token.word, layOut, List.take_zero,
        Location.after_nil, Nat.add_sub_cancel, List.take_succ_cons, Location.after_cons]
      exact congrArg _ (ih (l.advance c) n)

/-- Every token of a text begins where the one before it ends. -/
theorem scan_eq_layOut (cs : List Char) :
    Token.scan cs = layOut .origin ((Token.scan cs).map Token.word) :=
  scanFrom_eq_layOut .origin 0 cs

/-- Characters inside a token that was given already are passed over. -/
theorem scanFrom_inside (l : Location) (n : Nat) (cs : List Char) (h : n ≤ cs.length) :
    Token.scanFrom l n cs = Token.scanFrom (l.after (cs.take n)) 0 (cs.drop n) := by
  induction cs generalizing l n with
  | nil =>
    have : n = 0 := by simpa using h
    subst this
    rfl
  | cons c cs ih =>
    cases n with
    | zero => rfl
    | succ n =>
      rw [Token.scanFrom, ih (l.advance c) n (by simpa using h)]
      rfl

/-- A lexeme at the front of a text is its first token. -/
theorem scanFrom_lexeme {k : Kind} {w rest : List Char} (l : Location) (hw : w ≠ [])
    (h : lexeme (w ++ rest) = (k, w.length)) :
    Token.scanFrom l 0 (w ++ rest) = ⟨k, w, l⟩ :: Token.scanFrom (l.after w) 0 rest := by
  obtain ⟨c, w, rfl⟩ := List.exists_cons_of_ne_nil hw
  rw [List.cons_append, Token.scanFrom, ← List.cons_append, h]
  simp only [List.length_cons, Nat.add_sub_cancel]
  rw [scanFrom_inside _ _ _ (by simp)]
  simp

/-! ## Words that keep apart -/

/-- A word of this kind may stand before this character. -/
def Kind.endsBefore : Kind → Char → Bool
  | .blank, c => !(c = ' ' || c = '\t')
  | .newline, c => !(c = '\n' || c = '\r')
  | .bare, c | .boolean, c => !(isBare c || c = '*' || c = '?')
  | .basic, c => c ≠ '"'
  | _, _ => true

/-- These characters make a token of this kind before anything it may stand
before. -/
def IsWord (w : Word) : Prop :=
  w.2 ≠ [] ∧ ∀ rest : List Char, (∀ c ∈ rest.head?, w.1.endsBefore c = true) →
    lexeme (w.2 ++ rest) = (w.1, w.2.length)

/-- A row of words of which none runs into the next. -/
def Row : List Word → Prop
  | [] => True
  | w :: ws => IsWord w ∧ (∀ c ∈ (lettering ws).head?, w.1.endsBefore c = true) ∧ Row ws

/-- A row is cut into its words. -/
theorem scanFrom_row (l : Location) : ∀ (ws : List Word), Row ws →
    Token.scanFrom l 0 (lettering ws) = layOut l ws
  | [], _ => rfl
  | (k, w) :: ws, ⟨⟨hw, hlex⟩, hnext, hrow⟩ => by
      rw [lettering_cons, scanFrom_lexeme l hw (hlex _ hnext), scanFrom_row _ ws hrow]
      rfl

end AuditSettings.Toml
