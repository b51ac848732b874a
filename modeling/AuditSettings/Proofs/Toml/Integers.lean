/-
AuditSettings.Proofs.Toml.Integers — whole numbers from the text to the
tree.

Nothing that is written without parts is lost on the way to the tree, and
nothing like it is made there (`Document.mem_spots_iff`). So every whole
number in the tree comes from a numeral that stands at its location, and
is shown by a numeral of the same number if that has room in 64 bits. A
number without room is there too, but as zero.
-/
import AuditSettings.Proofs.Toml.Locations
import AuditSettings.Proofs.Toml.Numerals

namespace AuditSettings.Toml

open AuditSettings.Text

/-- The scalars in the tree of a document are those that are written. -/
theorem Document.mem_spots_iff {text : List Char} {d : Document} {t : Table}
    (hd : ofText text = .ok d) (ht : d.table = .ok t) {x : Spot} {v : Scalar}
    (hx : x.shape = .scalar v) : x ∈ d.spots ↔ ∃ a, (a, x) ∈ t.spots := by
  obtain ⟨hwritten, hsolid⟩ := written_perm (marks_in_order hd).1
  obtain ⟨-, lost, hlost⟩ := absorbs_table hd ht
  -- neither what headers and dots make nor what gives way to it is a scalar
  have hmade : x ∉ Node.entriesMade d.contents.entries := fun hmem => by
    rcases Node.shape_of_mem_entriesMade hmem with hshape | hshape
    · rw [hx] at hshape
      cases hshape
    · rw [hx] at hshape
      cases hshape
  have hkept (a : Address) : (a, x) ∉ lost := fun hmem => by
    have hshape : x.shape = .table := (hlost.lost _ hmem).1
    rw [hx] at hshape
    cases hshape
  have hnode (a : Address) : (a, x) ∈ Node.entrySpots d.contents.entries ↔ (a, x) ∈ t.spots := by
    have hmem := hlost.perm.mem_iff (a := (a, x))
    rw [List.nil_append, List.mem_append] at hmem
    rw [hmem, or_iff_left (hkept a)]
  calc x ∈ d.spots
    _ ↔ x ∈ Node.entriesWritten d.contents.entries := hwritten.mem_iff.symm
    _ ↔ x ∈ (Node.entrySpots d.contents.entries).map Prod.snd := by
      rw [hsolid.perm.mem_iff, List.mem_append, or_iff_left hmade]
    _ ↔ ∃ a, (a, x) ∈ Node.entrySpots d.contents.entries := by simp
    _ ↔ ∃ a, (a, x) ∈ t.spots := exists_congr hnode

/-- A token that writes a whole number at a location of a text. -/
structure WritesInteger (text : List Char) (l : Location) (tok : Token) : Prop where
  mem : tok ∈ Token.scan text
  start : tok.start = l
  kind : tok.kind ∈ integerKinds
  stands : StandsIn text l tok.text

/-- A whole number in the tree of an accepted text is written where it is
located, and it is described by a numeral of the number that is written
there, if this has room, and otherwise of zero. Every whole number that is
written is in the tree. -/
theorem parse_integers {text : List Char} {t : Table} (h : parse text = .ok t) :
    (∀ a x n, (a, x) ∈ t.spots → x.shape = .scalar (.integer n) →
      (Value.scalar x.location (.integer n)).describe = "integer " ++ toString n ∧
      ∃ tok, WritesInteger text x.location tok ∧ denoted (toString n).toList =
        if HasRoom (denoted tok.text) then denoted tok.text else 0) ∧
    ∃ d, Document.ofText text = .ok d ∧ ∀ x n, x.shape = .scalar (.integer n) →
      (x ∈ d.spots ↔ ∃ a, (a, x) ∈ t.spots) := by
  obtain ⟨d, hd, ht⟩ := exists_document h
  refine ⟨fun a x n hmem hx => ⟨rfl, ?_⟩, d, hd, fun x n hx => d.mem_spots_iff hd ht hx⟩
  have hstands := Document.standsIn hd
    (Document.spots_in ((d.mem_spots_iff hd ht hx).2 ⟨a, hmem⟩)).1
  rw [Spot.mark, hx] at hstands
  obtain ⟨tok, htok, hstart, hscalar, htext⟩ := hstands
  obtain ⟨hkind, hvalue⟩ := Token.integer_of_scalar htok hscalar
  exact ⟨tok, ⟨htok, hstart, hkind, htext⟩, (denoted_toString n).trans hvalue⟩

/-- Two numbers in an array, one in base sixteen. -/
theorem parse_integers_of_radix : ∃ t, parse "a = [-1_0, 0xfF]\n".toList = .ok t ∧
    ([.key "a", .index 1], ⟨none, ⟨1, 12⟩, .scalar (.integer 255)⟩) ∈ t.spots ∧
    ∃ tok, WritesInteger "a = [-1_0, 0xfF]\n".toList ⟨1, 12⟩ tok ∧ denoted tok.text = 255 := by
  obtain ⟨t, ht⟩ := exists_of_isOk (x := parse "a = [-1_0, 0xfF]\n".toList) (by
    simp only [String.reduceToList]
    decide +kernel)
  have hmem := of_all (fun t => decide (([Step.key "a", .index 1],
    Spot.mk none ⟨1, 12⟩ (.scalar (.integer 255))) ∈ t.spots)) ht (by
      simp only [String.reduceToList]
      decide +kernel)
  rw [decide_eq_true_iff] at hmem
  obtain ⟨-, tok, hwrites, hvalue⟩ := (parse_integers ht).1 _ _ 255 hmem rfl
  refine ⟨t, ht, hmem, tok, hwrites, ?_⟩
  rw [denoted_toString] at hvalue
  split at hvalue
  · exact hvalue.symm
  · cases hvalue

/-- A number that has no room is described as zero. -/
theorem parse_integer_without_room : ∃ t tok,
    parse "a = 18446744073709551616\n".toList = .ok t ∧
    ([.key "a"], ⟨some ⟨"a", ⟨1, 1⟩⟩, ⟨1, 5⟩, .scalar (.integer 0)⟩) ∈ t.spots ∧
    (Value.scalar ⟨1, 5⟩ (.integer 0)).describe = "integer 0" ∧
    WritesInteger "a = 18446744073709551616\n".toList ⟨1, 5⟩ tok ∧
    denoted tok.text = 18446744073709551616 := by
  obtain ⟨t, ht⟩ := exists_of_isOk (x := parse "a = 18446744073709551616\n".toList) (by
    simp only [String.reduceToList]
    decide +kernel)
  have hmem := of_all (fun t => decide (([Step.key "a"],
    Spot.mk (some ⟨"a", ⟨1, 1⟩⟩) ⟨1, 5⟩ (.scalar (.integer 0))) ∈ t.spots)) ht (by
      simp only [String.reduceToList]
      decide +kernel)
  refine ⟨t, ⟨.integer, "18446744073709551616".toList, ⟨1, 5⟩⟩, ht, of_decide_eq_true hmem, rfl,
    ⟨?_, rfl, by decide, "a = ".toList, ['\n'], ?_, ?_⟩, ?_⟩
  · simp only [String.reduceToList]
    decide +kernel
  · simp only [String.reduceToList, List.cons_append, List.nil_append]
  · simp only [String.reduceToList]
    decide +kernel
  · simp only [String.reduceToList]
    decide +kernel

end AuditSettings.Toml
