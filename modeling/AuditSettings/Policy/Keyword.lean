/-
AuditSettings.Policy.Keyword — closed vocabularies.

Some settings take one of a few words. A vocabulary says three things about
its words: which one is written for a meaning, which ones a diagnostic lists,
and which meaning one is read as. It comes with the proofs that these agree,
so that exactly the listed words are accepted and each is read as the meaning
it was written for. Words are matched letter by letter, in lower case.
-/
import AuditSettings.OrderedSet

namespace AuditSettings.Policy

/-- A type whose values are the meanings of a few words. -/
class Keyword (α : Type) where
  /-- The word for a meaning. -/
  word : α → String
  /-- The words that are listed, in order. -/
  words : List String
  /-- The meaning of a word, if it has one. -/
  ofWord? : String → Option α
  /-- A word has the meaning that it is the word for, and no other. -/
  ofWord?_eq_some_iff : ∀ {s : String} {a : α}, ofWord? s = some a ↔ word a = s
  /-- The words that are listed are those that have a meaning. -/
  mem_words_iff : ∀ {s : String}, s ∈ words ↔ ∃ a, ofWord? s = some a

namespace Keyword

variable {α : Type} [Keyword α]

/-- A word is the word for one meaning only. -/
theorem word_injective (a b : α) (h : word a = word b) : a = b := by
  have hb : ofWord? (word a) = some b := ofWord?_eq_some_iff.2 h.symm
  rw [ofWord?_eq_some_iff.2 rfl] at hb
  exact Option.some.inj hb

end Keyword

/-- The wording for a word that is not in the vocabulary. -/
def unknownKeyword (s : String) : String := s!"unknown keyword `{s}`"

end AuditSettings.Policy
