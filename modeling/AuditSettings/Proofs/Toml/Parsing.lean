/-
AuditSettings.Proofs.Toml.Parsing — what an accepted text becomes, and where
a refused one is faulted.

The tree of an accepted text is compared with what is written there: every
scalar, array and inline table at the address of its table and key, and
around them the tables and arrays that headers and dots lead to. They are
the same, each once, exactly when no two written values have one address
and none stands where a header leads. A text that breaks this is refused
nearly everywhere: the first fault is looked for in all tables, but not in
tables inside arrays. Two inline tables under one name pass there, and are
merged into one.

A text whose tables do not fit is refused for two keys of it. A key given
again is faulted where it stands; a key that leads a header where it may
not go is faulted at the start of the text.
-/
import AuditSettings.Proofs.Toml.Building
import AuditSettings.Proofs.Toml.Refusal

namespace AuditSettings.Toml

open AuditSettings.Text

/-! ## Running the parser on fixed texts -/

/-- The fault of a text, if it has one. -/
def fault? (text : List Char) : Option SyntaxError :=
  match parse text with
  | .ok _ => none
  | .error e => some e

theorem fault?_eq_some_iff {text : List Char} {e : SyntaxError} :
    fault? text = some e ↔ parse text = .error e := by
  rw [fault?]
  split
  · next t ht => simp [ht]
  · next e' he => simp [he]

/-! ## Accepted texts -/

/-- A text is accepted when it has a document that has a tree. -/
theorem parse_eq_ok_iff {text : List Char} {t : Table} :
    parse text = .ok t ↔ ∃ d, Document.ofText text = .ok d ∧ d.table = .ok t := by
  rw [parse]
  cases Document.ofText text with
  | error e => simp
  | ok d => simp

/-- An accepted text has a document, and its tree is that of the
document. -/
theorem exists_document {text : List Char} {t : Table} (h : parse text = .ok t) :
    ∃ d, Document.ofText text = .ok d ∧ d.table = .ok t :=
  parse_eq_ok_iff.1 h

/-- An accepted text spells what its document says, and its tree has just
what the document says, each value once at its address, exactly when no
address is given twice. -/
theorem parse_keeps_iff {text : List Char} {t : Table} (h : parse text = .ok t) :
    ∃ d, Document.ofText text = .ok d ∧ Spelled (Token.scan text) d.marks ∧
      (t.sites.Perm d.survey.sites ↔ (d.survey.sites.map Prod.fst).Nodup) := by
  obtain ⟨d, hd, htable⟩ := exists_document h
  exact ⟨d, hd, Document.ofText_spelled hd, Document.perm_sites_iff htable⟩

/-- A table that is opened after one of its own tables is kept. -/
theorem parse_keeps_reopened : ∃ t d, parse "[a.b]\nx = 1\n[a]\ny = 2\n".toList = .ok t ∧
    Document.ofText "[a.b]\nx = 1\n[a]\ny = 2\n".toList = .ok d ∧
    t.sites.Perm d.survey.sites := by
  obtain ⟨t, ht⟩ := exists_of_isOk (x := parse "[a.b]\nx = 1\n[a]\ny = 2\n".toList) (by
    simp only [String.reduceToList]
    decide +kernel)
  obtain ⟨d, hd, -, hiff⟩ := parse_keeps_iff ht
  have honce := of_all (fun d => decide (d.survey.sites.map Prod.fst).Nodup) hd (by
    simp only [String.reduceToList]
    decide +kernel)
  exact ⟨t, d, ht, hd, hiff.2 (of_decide_eq_true honce)⟩

/-- Two inline tables of one name become one in an array's element. -/
theorem parse_merges_inline_tables : ∃ t d,
    parse "[[r]]\n[r.t]\na = \x7bx = 1\x7d\na = \x7by = 2\x7d\n".toList = .ok t ∧
    Document.ofText "[[r]]\n[r.t]\na = \x7bx = 1\x7d\na = \x7by = 2\x7d\n".toList = .ok d ∧
    ¬ t.sites.Perm d.survey.sites := by
  obtain ⟨t, ht⟩ := exists_of_isOk
    (x := parse "[[r]]\n[r.t]\na = \x7bx = 1\x7d\na = \x7by = 2\x7d\n".toList) (by
      simp only [String.reduceToList]
      decide +kernel)
  obtain ⟨d, hd, htable⟩ := exists_document ht
  have htwice := of_all (fun d => decide ¬ (d.survey.sites.map Prod.fst).Nodup) hd (by
    simp only [String.reduceToList]
    decide +kernel)
  refine ⟨t, d, ht, hd, fun hperm => ?_⟩
  exact of_decide_eq_true htwice ((Document.perm_sites_iff htable).1 hperm)

/-! ## Refused texts -/

/-- A text that has a document but no tree is refused for two keys that are
written in it, an older and a newer one of its name. It is put at the newer
key exactly when that key is given again. -/
theorem error_at_later_iff {text : List Char} {d : Document} {e : SyntaxError}
    (hd : Document.ofText text = .ok d) (he : parse text = .error e) :
    Spelled (Token.scan text) d.marks ∧ ∃ old new, d.Refused old new e ∧
      .name old ∈ d.marks ∧ .name new ∈ d.marks ∧ old.name = new.name ∧
      old.location < new.location ∧ (e.location = new.location ↔
        e.cause = .conflictingKeys ∨ e.cause = .duplicateKey new.name) := by
  obtain ⟨hinc, horigin⟩ := Document.names_in_order hd
  have htable : d.table = .error e := by
    rw [parse, hd] at he
    exact he
  obtain ⟨old, new, hrefused, hold, hnew, hname, hlt⟩ := Document.exists_refused hinc htable
  exact ⟨Document.ofText_spelled hd, old, new, hrefused, mem_namesIn.1 hold, mem_namesIn.1 hnew,
    hname, hlt, hrefused.location_iff hlt (horigin old hold)⟩

/-- A key of a table that is given twice is faulted where it is given
again. -/
theorem error_at_later_of_twice : ∃ d e, Document.ofText "a = 1\na = 2\n".toList = .ok d ∧
    parse "a = 1\na = 2\n".toList = .error e ∧
    ∃ old new, d.Refused old new e ∧ old.location < new.location ∧ e.location = new.location := by
  obtain ⟨d, hd⟩ := exists_of_isOk (x := Document.ofText "a = 1\na = 2\n".toList) (by
    simp only [String.reduceToList]
    decide +kernel)
  have he : parse "a = 1\na = 2\n".toList = .error ⟨.conflictingKeys, ⟨2, 1⟩⟩ := by
    rw [← fault?_eq_some_iff]
    simp only [String.reduceToList]
    decide +kernel
  obtain ⟨-, old, new, hrefused, -, -, -, hlt, hiff⟩ := error_at_later_iff hd he
  exact ⟨d, _, hd, he, old, new, hrefused, hlt, hiff.2 (.inl rfl)⟩

/-- A header that leads through a scalar is faulted where no key stands. -/
theorem error_at_origin_of_scalar : ∃ d e, Document.ofText "\na = 1\n[a.b]\n".toList = .ok d ∧
    parse "\na = 1\n[a.b]\n".toList = .error e ∧
    ∀ p, .name p ∈ d.marks → e.location ≠ p.location := by
  obtain ⟨d, hd⟩ := exists_of_isOk (x := Document.ofText "\na = 1\n[a.b]\n".toList) (by
    simp only [String.reduceToList]
    decide +kernel)
  have he : parse "\na = 1\n[a.b]\n".toList = .error ⟨.tableExpected, .origin⟩ := by
    rw [← fault?_eq_some_iff]
    simp only [String.reduceToList]
    decide +kernel
  have hnone := of_all (fun d => (namesIn d.marks).all fun p => .origin ≠ p.location) hd (by
    simp only [String.reduceToList]
    decide +kernel)
  refine ⟨d, _, hd, he, fun p hp => ?_⟩
  simpa using List.all_eq_true.1 hnone p (mem_namesIn.2 hp)

end AuditSettings.Toml
