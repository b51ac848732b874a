/-
AuditSettings.Proofs.Settings.LineEndings — a text means the same with
either kind of line break.

Where no string goes over the end of a line, a carriage return before every
line feed leaves the document of a text as it is, and with it all that is
read off the document: the tree with its keys, values and locations, and the
settings with the ignored keys, or the value that is not accepted
(`lineEndings_agree`). A string over several lines is left out because the
carriage returns would become part of it.
-/
import AuditSettings.Discovery.Error
import AuditSettings.Proofs.Toml.LineBreaks
import AuditSettings.Proofs.Toml.Parsing

namespace AuditSettings

open AuditSettings.Text AuditSettings.Toml

/-- Texts with one tree have one reading, or one value that is refused. -/
theorem readDocument_of_parse {text text' : List Char} {t : Table} (h : parse text = .ok t)
    (h' : parse text' = .ok t) :
    (∃ r, readDocument text = .ok r ∧ readDocument text' = .ok r) ∨
      ∃ key expected found l,
        readDocument text = .error (.invalidValue none key expected found l) ∧
        readDocument text' = .error (.invalidValue none key expected found l) := by
  simp only [readDocument, Reading.ofText, h, h']
  cases Reading.ofTable t with
  | ok r => exact .inl ⟨r, rfl, rfl⟩
  | error e => exact .inr ⟨_, _, _, _, rfl, rfl⟩

/-- An accepted text without carriage returns, none of whose strings goes over
the end of a line, has the same tree and the same reading, or the same value
that is refused, when every line feed is put after a carriage return. -/
theorem lineEndings_agree {text : List Char} {t : Table} (hreturn : '\r' ∉ text)
    (hparse : parse text = .ok t)
    (hstring : ∀ s ∈ Token.scan text, s.kind ∈ stringKinds → '\n' ∉ s.text) :
    parse (withReturns text) = .ok t ∧
      ((∃ r, readDocument text = .ok r ∧ readDocument (withReturns text) = .ok r) ∨
        ∃ key expected found l,
          readDocument text = .error (.invalidValue none key expected found l) ∧
          readDocument (withReturns text) = .error (.invalidValue none key expected found l)) := by
  obtain ⟨d, hd, htable⟩ := exists_document hparse
  have hparse' : parse (withReturns text) = .ok t :=
    parse_eq_ok_iff.2 ⟨d, Document.ofText_withReturns hd hreturn hstring, htable⟩
  exact ⟨hparse', readDocument_of_parse hparse hparse'⟩

/-- A text with line breaks in an array, after a comment and after a header,
and with a value that is refused. -/
theorem lineEndings_agree_on_layout : ∃ t,
    '\r' ∉ "a = [ # b\n1,\n]\n\n[output]\nquiet = 'c'\n".toList ∧
    parse "a = [ # b\n1,\n]\n\n[output]\nquiet = 'c'\n".toList = .ok t ∧
    (∀ s ∈ Token.scan "a = [ # b\n1,\n]\n\n[output]\nquiet = 'c'\n".toList,
      s.kind ∈ stringKinds → '\n' ∉ s.text) ∧
    parse "a = [ # b\r\n1,\r\n]\r\n\r\n[output]\r\nquiet = 'c'\r\n".toList = .ok t ∧
    ∃ e, readDocument "a = [ # b\n1,\n]\n\n[output]\nquiet = 'c'\n".toList = .error e ∧
      readDocument "a = [ # b\r\n1,\r\n]\r\n\r\n[output]\r\nquiet = 'c'\r\n".toList = .error e := by
  obtain ⟨t, ht⟩ := exists_of_isOk
    (x := parse "a = [ # b\n1,\n]\n\n[output]\nquiet = 'c'\n".toList) (by
      simp only [String.reduceToList]
      decide +kernel)
  have hreturn : '\r' ∉ "a = [ # b\n1,\n]\n\n[output]\nquiet = 'c'\n".toList := by
    simp only [String.reduceToList]
    decide
  have hstring : ∀ s ∈ Token.scan "a = [ # b\n1,\n]\n\n[output]\nquiet = 'c'\n".toList,
      s.kind ∈ stringKinds → '\n' ∉ s.text := by
    simp only [String.reduceToList]
    decide +kernel
  have htext : withReturns "a = [ # b\n1,\n]\n\n[output]\nquiet = 'c'\n".toList =
      "a = [ # b\r\n1,\r\n]\r\n\r\n[output]\r\nquiet = 'c'\r\n".toList := by
    simp only [String.reduceToList]
    rfl
  have hrefused : (readDocument "a = [ # b\n1,\n]\n\n[output]\nquiet = 'c'\n".toList).isOk =
      false := by
    simp only [String.reduceToList]
    decide +kernel
  obtain ⟨hparse, hread⟩ := lineEndings_agree hreturn ht hstring
  rw [htext] at hparse hread
  refine ⟨t, hreturn, ht, hstring, hparse, ?_⟩
  rcases hread with ⟨r, hr, -⟩ | ⟨key, expected, found, l, he, he'⟩
  · rw [hr] at hrefused
    cases hrefused
  · exact ⟨_, he, he'⟩

end AuditSettings
