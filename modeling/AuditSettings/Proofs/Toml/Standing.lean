/-
AuditSettings.Proofs.Toml.Standing — what stands at a location of a text.

A location is told by the text in front of it: the line by its line feeds,
the column by the UTF-16 units after the last of them (`lineColumn`). The
tokens of a text tile it, so each stands at its location, and with it the
marks that it spells: a name, where a key is written that decodes to it;
a scalar, where a token converts to it; an opening bracket or brace, where
that character is.
-/
import AuditSettings.Proofs.Toml.Order
import Mathlib.Data.List.Induction

namespace AuditSettings.Text

/-- The line and the column just after the characters in front. -/
def lineColumn (front : List Char) : Location :=
  ⟨1 + front.count '\n', 1 + unitCount (front.reverse.takeWhile (· ≠ '\n'))⟩

/-- A location that is carried along a text counts its lines and the units
of the last one. -/
theorem Location.origin_after (front : List Char) : origin.after front = lineColumn front := by
  induction front using List.reverseRecOn with
  | nil => rfl
  | append_singleton cs c ih =>
    rw [after_append, ih, after_cons, after_nil, advance]
    by_cases hc : c = '\n'
    · simp [hc, lineColumn, unitCount, List.count_append, Nat.add_assoc]
    · simp [hc, lineColumn, unitCount, List.count_append, Nat.add_assoc, Nat.add_comm (units16 c)]

/-- Characters of a text and the location of the first of them. -/
def StandsIn (text : List Char) (l : Location) (cs : List Char) : Prop :=
  ∃ front rest, text = front ++ cs ++ rest ∧ l = lineColumn front

/-- What stands inside something that stands in a text. -/
theorem StandsIn.inside {text : List Char} {l : Location} (front mid rest : List Char)
    (h : StandsIn text l (front ++ mid ++ rest)) : StandsIn text (l.after front) mid := by
  obtain ⟨before, behind, rfl, rfl⟩ := h
  refine ⟨before ++ front, rest ++ behind, by simp, ?_⟩
  rw [← Location.origin_after, ← Location.origin_after, Location.after_append]

end AuditSettings.Text

namespace AuditSettings.Toml

open AuditSettings.Text

/-! ## Tokens -/

theorem exists_of_mem_layOut : ∀ {ws : List Word} {l : Location} {t : Token}, t ∈ layOut l ws →
    ∃ front rest, lettering ws = front ++ t.text ++ rest ∧ t.start = l.after front
  | (k, cs) :: ws, l, t, h => by
      rcases List.mem_cons.1 h with rfl | h
      · exact ⟨[], lettering ws, by simp, rfl⟩
      · obtain ⟨front, rest, htext, hstart⟩ := exists_of_mem_layOut h
        refine ⟨cs ++ front, rest, by simp [htext], ?_⟩
        rw [hstart, Location.after_append]

/-- A token of a text stands where it starts. -/
theorem Token.standsIn {text : List Char} {t : Token} (h : t ∈ scan text) :
    StandsIn text t.start t.text := by
  have hlettering : lettering ((scan text).map Token.word) = text := by
    have := flatMap_text_scan text
    rwa [lettering, List.flatMap_map]
  rw [scan_eq_layOut] at h
  obtain ⟨front, rest, htext, hstart⟩ := exists_of_mem_layOut h
  rw [hlettering] at htext
  exact ⟨front, rest, htext, by rw [hstart, Location.origin_after]⟩

/-! ## Names -/

/-- Whether a text has a key at whose part `p` begins: a bare one that is
written as the name of `p`, or a quoted one that decodes to it. -/
def KeyPart.StandsIn (p : KeyPart) (text : List Char) : Prop :=
  ∃ t ∈ Token.scan text, ∃ k, t.key = .ok k ∧ p ∈ k.parts ∧
    (Text.StandsIn text p.location p.name.toList ∨
      t.string = .ok p.name ∧ Text.StandsIn text p.location t.text)

/-- The parts of a key that a token writes stand where they are located. -/
theorem KeyPart.standsIn {text : List Char} {t : Token} {k : Key} {p : KeyPart}
    (ht : t ∈ Token.scan text) (hk : t.key = .ok k) (hp : p ∈ k.parts) : p.StandsIn text := by
  have hstands := Token.standsIn ht
  refine ⟨t, ht, k, hk, hp, ?_⟩
  cases Token.writes_of_key hk with
  | bare =>
    obtain rfl := List.mem_singleton.1 hp
    exact .inl (by simpa [Key.single] using hstands)
  | quoted hname =>
    obtain rfl := List.mem_singleton.1 hp
    exact .inr ⟨hname, hstands⟩
  | @dotted whole part _ htext =>
    have hpoint : Text.StandsIn text t.start (whole ++ ['.'] ++ part ++ []) := by
      simpa [htext] using hstands
    simp only [Key.parts, List.mem_cons, List.not_mem_nil, or_false] at hp
    rcases hp with rfl | rfl
    · have hwhole := Text.StandsIn.inside [] whole (['.'] ++ part) (by simpa using hpoint)
      exact .inl (by simpa using hwhole)
    · have hpart := hpoint.inside (whole ++ ['.']) part []
      exact .inl (by simpa using hpart)

/-! ## Marks -/

/-- What is spelled is spelled by one of the tokens. -/
theorem Spelled.exists_token : ∀ {ts : List Token} {ms : List Mark} {m : Mark}, Spelled ts ms →
    m ∈ ms → ∃ t ∈ ts, ∃ ns, t.Spells ns ∧ m ∈ ns
  | _, _, m, .nil, h => by cases h
  | _, _, m, .cons (t := t) hms hns, h => by
      rcases List.mem_append.1 h with h | h
      · exact ⟨t, List.mem_cons_self, _, hms, h⟩
      · obtain ⟨u, hu, rest⟩ := hns.exists_token h
        exact ⟨u, List.mem_cons_of_mem _ hu, rest⟩

/-- Whether a mark stands in a text where it is located. -/
def Mark.StandsIn (text : List Char) : Mark → Prop
  | .name p => p.StandsIn text
  | .scalar l v => ∃ t ∈ Token.scan text, t.start = l ∧ t.scalar = .ok v ∧
      Text.StandsIn text l t.text
  | .openBracket l => Text.StandsIn text l ['[']
  | .openBrace l => Text.StandsIn text l ['\x7b']
  | .equals | .secondBracket | .closeBracket | .closeBrace => True

/-- Whatever a document says stands in its text. -/
theorem Document.standsIn {text : List Char} {d : Document} (h : ofText text = .ok d) {m : Mark}
    (hm : m ∈ d.marks) : m.StandsIn text := by
  obtain ⟨t, ht, ns, hspells, hmem⟩ := (ofText_spelled h).exists_token hm
  have hstands := Token.standsIn ht
  cases hspells with
  | nothing => cases hmem
  | names hk =>
    obtain ⟨p, hp, rfl⟩ := List.mem_map.1 hmem
    exact KeyPart.standsIn ht hk hp
  | scalar hv =>
    obtain rfl := List.mem_singleton.1 hmem
    exact ⟨t, ht, rfl, hv, hstands⟩
  | openBracket hk =>
    obtain rfl := List.mem_singleton.1 hmem
    rwa [(Token.proper ht).bracketOpen hk] at hstands
  | openBrace hk =>
    obtain rfl := List.mem_singleton.1 hmem
    rwa [(Token.proper ht).braceOpen hk] at hstands
  | equals | secondBracket | closeBracket | closeBrace =>
    obtain rfl := List.mem_singleton.1 hmem
    trivial

end AuditSettings.Toml
