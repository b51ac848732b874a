/-
AuditSettings.Proofs.Report.Unambiguous — settings are told by their JSON
text.

The text of a JSON value shows where it ends. Whatever follows the texts of
two values, if the whole is the same then so are the values and what follows
(`Json.text_append_inj`). For strings that is because a quote inside of one
is escaped and no escape is the front of another; for arrays and objects
because a comma, or a line break without one, comes after every item. So no
string can imitate the end of itself, an item more or a value that is absent,
and from the text of some settings each of them can be read off again.
-/
import AuditSettings.Command.Run
import AuditSettings.Proofs.Text.Quoting
import AuditSettings.Proofs.Toml.BasicString

namespace AuditSettings

open AuditSettings.Policy

namespace Json

variable {x y : List Char}

/-! ## Strings -/

/-- The characters that are escaped by a letter or sign, each with it. -/
def signs : List (Char × Char) :=
  [('"', '"'), ('\\', '\\'), ('\x08', 'b'), ('\x0c', 'f'), ('\n', 'n'), ('\r', 'r'), ('\t', 't')]

/-- A character is escaped by a sign, written by its number, or stands for
itself. -/
theorem stringChar_cases (c : Char) :
    (∃ sign, (c, sign) ∈ signs ∧ stringChar c = ['\\', sign]) ∨
      c.toNat < 32 ∧ stringChar c = Toml.shortEscape c ∨
      (c ≠ '"' ∧ c ≠ '\\') ∧ stringChar c = [c] := by
  by_cases hsign : c ∈ signs.map Prod.fst
  · obtain ⟨⟨d, sign⟩, hmem, rfl⟩ := List.mem_map.1 hsign
    refine .inl ⟨sign, hmem, ?_⟩
    simp only [signs, List.mem_cons, Prod.mk.injEq, List.not_mem_nil, or_false] at hmem
    rcases hmem with ⟨rfl, rfl⟩ | ⟨rfl, rfl⟩ | ⟨rfl, rfl⟩ | ⟨rfl, rfl⟩ | ⟨rfl, rfl⟩ | ⟨rfl, rfl⟩ |
      ⟨rfl, rfl⟩ <;> rfl
  · simp only [signs, List.map_cons, List.map_nil, List.mem_cons, List.not_mem_nil, or_false,
      not_or] at hsign
    obtain ⟨hquote, hbackslash, hb, hf, hn, hr, ht⟩ := hsign
    unfold stringChar
    rw [if_neg hquote, if_neg hbackslash, if_neg hb, if_neg hf, if_neg hn, if_neg hr, if_neg ht]
    split
    · next hlt => exact .inr (.inl ⟨hlt, rfl⟩)
    · exact .inr (.inr ⟨⟨hquote, hbackslash⟩, rfl⟩)

/-- The digits of a control character tell it. -/
theorem eq_of_shortEscape {c d : Char} (hc : c.toNat < 32) (hd : d.toNat < 32)
    (h : (Toml.shortEscape c).drop 2 ++ x = (Toml.shortEscape d).drop 2 ++ y) : c = d ∧ x = y := by
  simp only [Toml.shortEscape, List.drop_succ_cons, List.drop_zero, List.cons_append,
    List.nil_append, List.cons.injEq, true_and] at h
  obtain ⟨hhigh, hlow, hrest⟩ := h
  have hhigh := congrArg Number.digitValue hhigh
  have hlow := congrArg Number.digitValue hlow
  rw [(Toml.digitChar_of_lt _ (by omega)).2.1, (Toml.digitChar_of_lt _ (by omega)).2.1] at hhigh hlow
  have hnumber : c.toNat = d.toNat := by omega
  exact ⟨Char.toNat_inj.1 hnumber, hrest⟩

/-- How strings are written. -/
def stringEscaping : Text.Escaping where
  write := stringChar
  signs := signs
  Numbered := fun c => c.toNat < 32
  number := fun c => (Toml.shortEscape c).drop 2
  write_cases := stringChar_cases
  sign_inj := by decide
  number_inj := eq_of_shortEscape

/-- A string between quotes tells itself and where it ends. -/
theorem stringText_append_inj {s t : String} (h : stringText s ++ x = stringText t ++ y) :
    s = t ∧ x = y := by
  simp only [stringText, List.cons_append, List.append_assoc, List.nil_append] at h
  obtain ⟨hletters, hrest⟩ := stringEscaping.flatMap_inj (List.cons.inj h).2
  exact ⟨String.toList_inj.1 hletters, hrest⟩

/-! ## Values -/

/-- The character that a value begins with. -/
def opening : Json → Char
  | null => 'n'
  | boolean true => 't'
  | boolean false => 'f'
  | string _ => '"'
  | array _ => '['
  | object _ => '\x7b'

theorem exists_text_eq_cons (depth : Nat) : ∀ v : Json, ∃ rest, text depth v = v.opening :: rest
  | null => ⟨_, by rw [text, opening]⟩
  | boolean true => ⟨_, by rw [text, opening]⟩
  | boolean false => ⟨_, by rw [text, opening]⟩
  | string s => ⟨_, by rw [text, opening, stringText]; rfl⟩
  | array [] => ⟨_, by rw [text, opening]⟩
  | array (v :: vs) => ⟨_, by rw [text, opening]; rfl⟩
  | object [] => ⟨_, by rw [text, opening]⟩
  | object ((k, v) :: members) => ⟨_, by rw [text, opening]; rfl⟩

/-- Values of one text begin alike. -/
theorem opening_eq {v w : Json} {depth : Nat} (h : text depth v ++ x = text depth w ++ y) :
    v.opening = w.opening := by
  obtain ⟨rest, hv⟩ := exists_text_eq_cons depth v
  obtain ⟨rest', hw⟩ := exists_text_eq_cons depth w
  rw [hv, hw] at h
  exact (List.cons.inj h).1

mutual

/-- The text of a value tells the value and where it ends. -/
theorem text_append_inj : ∀ {v w : Json} {depth : Nat} {x y : List Char},
    text depth v ++ x = text depth w ++ y → v = w ∧ x = y
  | .null, w, depth, x, y, h => by
      have hopening := opening_eq h
      cases w with
      | null => exact ⟨rfl, List.append_cancel_left h⟩
      | boolean b => cases b <;> simp [opening] at hopening
      | _ => simp [opening] at hopening
  | .boolean b, w, depth, x, y, h => by
      have hopening := opening_eq h
      cases w with
      | boolean b' =>
        obtain rfl : b = b' := by cases b <;> cases b' <;> simp_all [opening]
        exact ⟨rfl, List.append_cancel_left h⟩
      | _ => cases b <;> simp [opening] at hopening
  | .string s, w, depth, x, y, h => by
      have hopening := opening_eq h
      cases w with
      | string t =>
        rw [text, text] at h
        obtain ⟨rfl, hrest⟩ := stringText_append_inj h
        exact ⟨rfl, hrest⟩
      | boolean b => cases b <;> simp [opening] at hopening
      | _ => simp [opening] at hopening
  | .array vs, w, depth, x, y, h => by
      have hopening := opening_eq h
      cases w with
      | array ws =>
        cases vs with
        | nil =>
          cases ws with
          | nil => exact ⟨rfl, List.append_cancel_left h⟩
          | cons w ws => simp [text, newline] at h
        | cons v vs =>
          cases ws with
          | nil => simp [text, newline] at h
          | cons w ws =>
            simp only [text, List.append_assoc, List.cons_append, List.cons.injEq, true_and,
              List.append_cancel_left_eq] at h
            obtain ⟨rfl, hitems⟩ := text_append_inj h
            obtain ⟨rfl, hrest⟩ := itemsText_append_inj hitems
            exact ⟨rfl, by simpa using hrest⟩
      | boolean b => cases b <;> simp [opening] at hopening
      | _ => simp [opening] at hopening
  | .object ms, w, depth, x, y, h => by
      have hopening := opening_eq h
      cases w with
      | object ns =>
        cases ms with
        | nil =>
          cases ns with
          | nil => exact ⟨rfl, List.append_cancel_left h⟩
          | cons n ns => simp [text, newline] at h
        | cons m ms =>
          cases ns with
          | nil => simp [text, newline] at h
          | cons n ns =>
            obtain ⟨k, v⟩ := m
            obtain ⟨k', w⟩ := n
            simp only [text, List.append_assoc, List.cons_append, List.cons.injEq, true_and,
              List.append_cancel_left_eq] at h
            obtain ⟨rfl, hvalue⟩ := stringText_append_inj h
            simp only [List.cons.injEq, true_and] at hvalue
            obtain ⟨rfl, hmembers⟩ := text_append_inj hvalue
            obtain ⟨rfl, hrest⟩ := membersText_append_inj hmembers
            exact ⟨rfl, by simpa using hrest⟩
      | boolean b => cases b <;> simp [opening] at hopening
      | _ => simp [opening] at hopening

/-- The items after the first tell themselves before a line break, which no
comma announces. -/
theorem itemsText_append_inj : ∀ {vs ws : List Json} {depth depth' : Nat} {x y : List Char},
    itemsText depth vs ++ (newline depth' ++ x) = itemsText depth ws ++ (newline depth' ++ y) →
    vs = ws ∧ x = y
  | [], [], depth, depth', x, y, h => ⟨rfl, List.append_cancel_left h⟩
  | [], w :: ws, depth, depth', x, y, h => by simp [itemsText, newline] at h
  | v :: vs, [], depth, depth', x, y, h => by simp [itemsText, newline] at h
  | v :: vs, w :: ws, depth, depth', x, y, h => by
      simp only [itemsText, List.append_assoc, List.cons_append, List.cons.injEq, true_and,
        List.append_cancel_left_eq] at h
      obtain ⟨rfl, hitems⟩ := text_append_inj h
      obtain ⟨rfl, hrest⟩ := itemsText_append_inj hitems
      exact ⟨rfl, hrest⟩

theorem membersText_append_inj : ∀ {ms ns : List (String × Json)} {depth depth' : Nat}
    {x y : List Char}, membersText depth ms ++ (newline depth' ++ x) =
      membersText depth ns ++ (newline depth' ++ y) → ms = ns ∧ x = y
  | [], [], depth, depth', x, y, h => ⟨rfl, List.append_cancel_left h⟩
  | [], (k, w) :: ns, depth, depth', x, y, h => by simp [membersText, newline] at h
  | (k, v) :: ms, [], depth, depth', x, y, h => by simp [membersText, newline] at h
  | (k, v) :: ms, (k', w) :: ns, depth, depth', x, y, h => by
      simp only [membersText, List.append_assoc, List.cons_append, List.cons.injEq, true_and,
        List.append_cancel_left_eq] at h
      obtain ⟨rfl, hvalue⟩ := stringText_append_inj h
      simp only [List.cons.injEq, true_and] at hvalue
      obtain ⟨rfl, hmembers⟩ := text_append_inj hvalue
      obtain ⟨rfl, hrest⟩ := membersText_append_inj hmembers
      exact ⟨rfl, hrest⟩

end

/-- Two values of one text are the same. -/
theorem text_injective (depth : Nat) : Function.Injective (text depth) := fun v w h =>
  (text_append_inj (x := []) (y := []) (by rw [h])).1

/-! ## Sets -/

theorem strings_injective : Function.Injective strings := by
  intro names names' h
  exact (List.map_inj_right fun _ _ => Json.string.inj).1 (Json.array.inj h)

theorem members_injective {α : Type} [Ord α] :
    Function.Injective (OrderedSet.members : OrderedSet α → List α) := by
  rintro ⟨l, hl⟩ ⟨m, hm⟩ h
  cases h
  rfl

theorem wordSet_injective {α : Type} [Ord α] [Keyword α] :
    Function.Injective (wordSet : OrderedSet α → Json) := by
  intro s t h
  exact members_injective ((List.map_inj_right Keyword.word_injective).1 (strings_injective h))

/-- A path that is absent is no string, so not the path `null` either. -/
theorem path_injective : Function.Injective fun p : Option Path => p.elim .null Json.string := by
  intro p q h
  cases p <;> cases q <;> simp_all

end Json

/-! ## Settings -/

/-- Settings of one JSON object are the same. -/
theorem Settings.json_injective : Function.Injective Settings.json := by
  rintro ⟨⟨ignore, warn, least⟩, ⟨deny, format, quiet, tree⟩, ⟨enabled, update⟩,
    ⟨path, url, fetch, stale⟩, ⟨arch, os⟩⟩ ⟨⟨ignore', warn', least'⟩, ⟨deny', format', quiet', tree'⟩,
    ⟨enabled', update'⟩, ⟨path', url', fetch', stale'⟩, ⟨arch', os'⟩⟩ h
  simp only [json, Json.object.injEq, List.cons.injEq, Prod.mk.injEq, true_and, and_true,
    Json.string.injEq, Json.boolean.injEq] at h
  obtain ⟨⟨hignore, hwarn, hleast⟩, ⟨hdeny, hformat, rfl, rfl⟩, ⟨rfl, rfl⟩, ⟨hpath, rfl, rfl, rfl⟩,
    harch, hos⟩ := h
  obtain rfl := Json.members_injective (Json.strings_injective hignore)
  obtain rfl := Json.wordSet_injective hwarn
  obtain rfl := Keyword.word_injective _ _ hleast
  obtain rfl := Json.wordSet_injective hdeny
  obtain rfl := Keyword.word_injective _ _ hformat
  obtain rfl := Json.path_injective hpath
  obtain rfl := Json.members_injective (Json.strings_injective harch)
  obtain rfl := Json.members_injective (Json.strings_injective hos)
  rfl

/-- What is printed of some settings as JSON is printed of no others, whatever
their strings and sets hold. -/
theorem Loaded.text_json_eq_iff (l l' : Loaded) :
    l.text .json = l'.text .json ↔ l.settings = l'.settings := by
  constructor
  · intro h
    have hletters := congrArg String.toList h
    simp only [text, Settings.jsonText, String.toList_append, String.toList_ofList,
      List.append_cancel_right_eq] at hletters
    exact Settings.json_injective (Json.text_injective 0 hletters)
  · intro h
    rw [text, text, h]

end AuditSettings
