/-
AuditSettings.Proofs.Toml.LaterKey — of two keys the one that is written
later.

Locations are compared by line and column, and that is the order of the text:
the location of a byte grows from character to character and is the same for
all bytes of one (`locations_in_text_order`). Every key part of a document is
located at the byte where it is written. So a clash of two keys, which is put
at the later of their locations, is put at the key that is written later.
-/
import AuditSettings.Proofs.Text.Offsets
import AuditSettings.Proofs.Toml.Standing

namespace AuditSettings.Toml

open AuditSettings.Text

/-- Whether a key part is written in a text from a byte on: as its name, or
as a string that decodes to it. -/
def KeyPart.BeginsAt (p : KeyPart) (text : List Char) (n : Nat) : Prop :=
  ∃ front letters rest, text = front ++ letters ++ rest ∧ byteCount front = n ∧
    (letters = p.name.toList ∨ ∃ t ∈ Token.scan text, t.string = .ok p.name ∧ letters = t.text)

theorem KeyPart.BeginsAt.isBoundary {p : KeyPart} {text : List Char} {n : Nat}
    (h : p.BeginsAt text n) : IsBoundary text n := by
  obtain ⟨front, letters, rest, rfl, hn, -⟩ := h
  exact ⟨front, ⟨letters ++ rest, by rw [List.append_assoc]⟩, hn⟩

/-- A key part that stands in a text begins at a byte of its location. -/
theorem KeyPart.StandsIn.exists_beginsAt {p : KeyPart} {text : List Char} (h : p.StandsIn text) :
    ∃ n, p.BeginsAt text n ∧ p.location = Location.origin.atOffset text n := by
  have hplace {letters : List Char} (hstands : Text.StandsIn text p.location letters) :
      ∃ front rest, text = front ++ letters ++ rest ∧
        p.location = Location.origin.atOffset text (byteCount front) := by
    obtain ⟨front, rest, htext, hlocation⟩ := hstands
    have hfront : front <+: text := ⟨letters ++ rest, by rw [htext, List.append_assoc]⟩
    refine ⟨front, rest, htext, ?_⟩
    rw [hlocation, ← Location.origin_after, Location.atOffset_of_front _ hfront]
  -- a part of a dotted bare key is its name, and a quoted part is a token of its own
  obtain ⟨t, ht, k, -, -, hbare | ⟨hname, hquoted⟩⟩ := h
  · obtain ⟨front, rest, htext, hlocation⟩ := hplace hbare
    exact ⟨_, ⟨front, _, rest, htext, rfl, .inl rfl⟩, hlocation⟩
  · obtain ⟨front, rest, htext, hlocation⟩ := hplace hquoted
    exact ⟨_, ⟨front, _, rest, htext, rfl, .inr ⟨t, ht, hname, rfl⟩⟩, hlocation⟩

/-- The locations of a text are in its own order. They begin at the origin,
grow from one character to the next up to the end of the text, and do not
change inside of a character; so no two characters share one. Of any two keys
of a document without syntax errors the later location is that of the one
written later, and a clash of the two is put there. -/
theorem locations_in_text_order (text : List Char) :
    Location.origin.atOffset text 0 = .origin ∧
    (∀ m n, IsBoundary text m → IsBoundary text n →
      (Location.origin.atOffset text m < Location.origin.atOffset text n ↔ m < n) ∧
      (Location.origin.atOffset text m = Location.origin.atOffset text n ↔ m = n)) ∧
    (∀ front c rest k, text = front ++ c :: rest → k < c.utf8Size →
      Location.origin.atOffset text (byteCount front + k) =
        Location.origin.atOffset text (byteCount front)) ∧
    ∀ d, Document.ofText text = .ok d → ∀ p ∈ namesIn d.marks, ∀ q ∈ namesIn d.marks,
      ∃ m n, p.BeginsAt text m ∧ p.location = Location.origin.atOffset text m ∧
        q.BeginsAt text n ∧ q.location = Location.origin.atOffset text n ∧
        (Clash.mk .conflictingKeys p q).error.location =
          Location.origin.atOffset text (max m n) := by
  refine ⟨?_, ?_, ?_, ?_⟩
  · exact Location.atOffset_byteCount .origin [] text
  · intro m n hm hn
    exact ⟨Location.atOffset_lt_iff _ hm hn, Location.atOffset_inj _ hm hn⟩
  · rintro front c rest k rfl hk
    rw [Location.atOffset_inside _ front c rest hk, Location.atOffset_byteCount]
  · intro d hd p hp q hq
    obtain ⟨m, hm, hp⟩ := (Document.standsIn hd (mem_namesIn.1 hp)).exists_beginsAt
    obtain ⟨n, hn, hq⟩ := (Document.standsIn hd (mem_namesIn.1 hq)).exists_beginsAt
    refine ⟨m, n, hm, hp, hn, hq, ?_⟩
    show p.location.later q.location = _
    rw [hp, hq, Location.later_atOffset _ hm.isBoundary hn.isBoundary]

/-- Two keys on one line, the first of them a character of four bytes and two
units, which begins at byte 6. -/
def widePair : String := "x = \x7b\"😀\" = 1, b = 2\x7d"

/-- The second is the later one. -/
theorem locations_in_text_order_wide :
    ∃ d, Document.ofText widePair.toList = .ok d ∧
      ⟨"😀", ⟨1, 6⟩⟩ ∈ namesIn d.marks ∧ ⟨"b", ⟨1, 16⟩⟩ ∈ namesIn d.marks ∧
      Location.origin.atOffset widePair.toList 6 < Location.origin.atOffset widePair.toList 10 ∧
      Location.origin.atOffset widePair.toList 9 = Location.origin.atOffset widePair.toList 6 ∧
      ∃ m n, KeyPart.BeginsAt ⟨"b", ⟨1, 16⟩⟩ widePair.toList m ∧
        KeyPart.BeginsAt ⟨"😀", ⟨1, 6⟩⟩ widePair.toList n ∧
        ⟨1, 16⟩ = Location.origin.atOffset widePair.toList (max m n) := by
  obtain ⟨-, horder, hinside, hkeys⟩ := locations_in_text_order widePair.toList
  obtain ⟨d, hd⟩ := exists_of_isOk (x := Document.ofText widePair.toList) (by
      simp only [widePair, String.reduceToList]
      decide +kernel)
  have hnames := of_all (fun d => decide
    (KeyPart.mk "😀" ⟨1, 6⟩ ∈ namesIn d.marks ∧ KeyPart.mk "b" ⟨1, 16⟩ ∈ namesIn d.marks)) hd (by
      simp only [widePair, String.reduceToList]
      decide +kernel)
  obtain ⟨hwide, hb⟩ := of_decide_eq_true hnames
  have hfront : IsBoundary widePair.toList 6 :=
    ⟨"x = \x7b\"".toList, ⟨"😀\" = 1, b = 2\x7d".toList, by decide⟩, by decide⟩
  have hbehind : IsBoundary widePair.toList 10 :=
    ⟨"x = \x7b\"😀".toList, ⟨"\" = 1, b = 2\x7d".toList, by decide⟩, by decide⟩
  have hlast := hinside "x = \x7b\"".toList '😀' "\" = 1, b = 2\x7d".toList 3 (by decide) (by decide)
  obtain ⟨m, n, hm, -, hn, -, hlater⟩ := hkeys d hd _ hb _ hwide
  have hgrows := (horder 6 10 hfront hbehind).1.2 (by decide)
  exact ⟨d, hd, hwide, hb, hgrows, hlast, m, n, hm, hn, hlater⟩

end AuditSettings.Toml
