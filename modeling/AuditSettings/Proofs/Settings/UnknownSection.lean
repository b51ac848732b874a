/-
AuditSettings.Proofs.Settings.UnknownSection — a section that the settings do
not know.

`Document.withSection` puts a section of pairs between two parts of a
text. When its name is no section of the settings and no other entry of the
document, the text is read to the same settings as without it, whatever is in
the section, and its name is the only key that is ignored besides
(`readDocument_withSection`). The text is joined in `Joining`, its tree built
in `Insertion`, and what is left here is the walk over the tree: it makes one
visit more, which ignores the new name, and every other visit stays as it is.

Not every row of bare characters is a name before a closing bracket. A day
such as 2024-01-01 and a number such as 0e5 are words of their own there, and
a header of them is refused (`readDocument_withSection_ne_ok`).
-/
import AuditSettings.Proofs.Settings.Meaning
import AuditSettings.Proofs.Settings.ReadAtOrigin
import AuditSettings.Proofs.Toml.Insertion
import AuditSettings.Proofs.Toml.Joining
import AuditSettings.Proofs.Toml.Parsing

namespace AuditSettings

open AuditSettings.Text AuditSettings.Toml

/-! ## Visits -/

namespace Visit

/-- An entry of the root that is no section is one visit more. -/
theorem spliced_ofTable {t t' : Table} {k : KeyPart} {v : Value}
    (h : Spliced (k, v) t.entries t'.entries) (hk : k.name ∉ sectionNames) :
    Spliced (.unknown ⟨k.name, k.location⟩) (ofTable t) (ofTable t') := by
  obtain ⟨before, after, ht, ht'⟩ := h
  have hentry : ofEntry k v = [.unknown ⟨k.name, k.location⟩] := by simp [ofEntry, hk]
  refine ⟨before.flatMap fun e => ofEntry e.1 e.2, after.flatMap fun e => ofEntry e.1 e.2, ?_, ?_⟩
  · simp [ofTable, ht]
  · simp [ofTable, ht', hentry]

end Visit

/-! ## Readings -/

/-- Whether a reading is another one in which a key more is ignored. -/
structure IgnoresToo (k : IgnoredKey) (r r' : Reading) : Prop where
  settings : r'.settings = r.settings
  ignored : Spliced k r.ignored r'.ignored

namespace IgnoresToo

variable {k : IgnoredKey} {r r' s : Reading}

/-- A visit does not ask what is ignored. -/
theorem visit (h : IgnoresToo k r r') {x : Visit} (hs : r.visit x = .ok s) :
    ∃ s', r'.visit x = .ok s' ∧ IgnoresToo k s s' := by
  cases x with
  | field f key v =>
    rw [Reading.visit] at hs ⊢
    cases hv : f.read v with
    | error e =>
      rw [hv] at hs
      cases hs
    | ok a =>
      rw [hv] at hs
      cases hs
      exact ⟨_, rfl, congrArg (·.assign a) h.settings, h.ignored⟩
  | unknown k' =>
    cases hs
    exact ⟨_, rfl, h.settings, h.ignored.append [k']⟩
  | misfit key v => cases hs

/-- Nor do several. -/
theorem foldlM {xs : List Visit} (h : IgnoresToo k r r')
    (hs : xs.foldlM Reading.visit r = .ok s) :
    ∃ s', xs.foldlM Reading.visit r' = .ok s' ∧ IgnoresToo k s s' := by
  induction xs generalizing r r' with
  | nil =>
    cases hs
    exact ⟨r', rfl, h⟩
  | cons x xs ih =>
    rw [List.foldlM_cons] at hs ⊢
    obtain ⟨mid, hmid, hrest⟩ := exists_of_bind_eq_ok hs
    obtain ⟨mid', hmid', hmore⟩ := h.visit hmid
    rw [hmid']
    exact ih hmore hrest

end IgnoresToo

namespace Reading

/-- A visit more to a key that is not known ignores that key and changes
nothing else. -/
theorem foldlM_visit_spliced {xs ys : List Visit} {k : IgnoredKey} {r s : Reading}
    (h : Spliced (.unknown k) xs ys) (hs : xs.foldlM visit r = .ok s) :
    ∃ s', ys.foldlM visit r = .ok s' ∧ IgnoresToo k s s' := by
  obtain ⟨before, after, rfl, rfl⟩ := h
  rw [List.foldlM_append] at hs
  obtain ⟨mid, hmid, hafter⟩ := exists_of_bind_eq_ok hs
  have hnew : IgnoresToo k mid { mid with ignored := mid.ignored ++ [k] } :=
    ⟨rfl, .concat k mid.ignored⟩
  rw [List.foldlM_append, hmid]
  exact hnew.foldlM hafter

/-- An entry more that is no section is ignored. -/
theorem ofTable_spliced {t t' : Table} {k : KeyPart} {v : Value} {r : Reading}
    (h : Spliced (k, v) t.entries t'.entries) (hk : k.name ∉ sectionNames)
    (hr : ofTable t = .ok r) :
    ∃ r', ofTable t' = .ok r' ∧ IgnoresToo ⟨k.name, k.location⟩ r r' :=
  foldlM_visit_spliced (Visit.spliced_ofTable h hk) hr

end Reading

/-! ## Texts -/

namespace Toml

/-- A tree at the origin has the same names. -/
theorem Table.get?_atOrigin (t : Table) (name : String) :
    t.atOrigin.get? name = (t.get? name).map fun e => (e.1.atOrigin, e.2.atOrigin) :=
  find?_entriesAtOrigin t.entries name

theorem Table.get?_eq_none_of_atOrigin {t u : Table} {name : String}
    (h : t.atOrigin = u.atOrigin) (hnone : u.get? name = none) : t.get? name = none := by
  have hget := t.get?_atOrigin name
  rw [h, u.get?_atOrigin name, hnone] at hget
  exact Option.map_eq_none_iff.1 hget.symm

/-- A document that has a tree has the same one at the origin. -/
theorem Document.exists_table_atOrigin {d : Document} {t : Table} (h : d.table = .ok t) :
    ∃ u, d.atOrigin.table = .ok u ∧ u.atOrigin = t.atOrigin := by
  have htable := d.table_atOrigin
  rw [h] at htable
  exact exists_of_toOption_map htable

/-- The tree of a text with a section put into it has one entry more, apart
from where everything stands. -/
theorem parse_withSection {t₁ t₂ b n : List Char} {t : Table}
    (h₁ : ∃ t, parse t₁ = .ok t) (h₂ : Document.IsSections t₂)
    (h : parse (t₁ ++ '\n' :: t₂) = .ok t) (hn : IsName n)
    (hroot : t.get? (String.ofList n) = none) (hb : ∃ u, parse b = .ok u)
    (hpairs : Document.IsPairs b) :
    ∃ v t', parse (Document.withSection t₁ n b t₂) = .ok t' ∧
      Spliced (⟨String.ofList n, .origin⟩, v) t.atOrigin.entries t'.atOrigin.entries := by
  obtain ⟨s, hs⟩ := h₁
  obtain ⟨d₁, hd₁, -⟩ := parse_eq_ok_iff.1 hs
  obtain ⟨d, hd, htable⟩ := parse_eq_ok_iff.1 h
  obtain ⟨u, hu⟩ := hb
  obtain ⟨e, he, hutable⟩ := parse_eq_ok_iff.1 hu
  have hnone : e.sections = [] := by
    obtain ⟨e', he', hnone⟩ := hpairs
    rw [he] at he'
    cases he'
    exact hnone
  obtain ⟨opening, before, after, d', hd', hat, hat'⟩ :=
    Document.ofText_withSection hd₁ h₂ hd he hnone hn
  obtain ⟨t₀, ht₀, hsame⟩ := Document.exists_table_atOrigin htable
  obtain ⟨u₀, hu₀, -⟩ := Document.exists_table_atOrigin hutable
  have hpairs₀ : e.atOrigin = ⟨e.atOrigin.opening, []⟩ := by simp [Document.atOrigin, hnone]
  rw [hat] at ht₀
  rw [hpairs₀] at hu₀
  have hroot₀ : t₀.get? (KeyPart.mk (String.ofList n) .origin).name = none :=
    Table.get?_eq_none_of_atOrigin hsame hroot
  obtain ⟨v, t₀', ht₀', hsplice⟩ := Document.table_insert ht₀ hu₀ hroot₀
  have hnew := d'.table_atOrigin
  rw [hat', ht₀'] at hnew
  obtain ⟨t', ht', hsame'⟩ := exists_of_toOption_map hnew.symm
  refine ⟨v.atOrigin, t', parse_eq_ok_iff.2 ⟨d', hd', ht'⟩, ?_⟩
  rw [← hsame, hsame', Table.atOrigin, Table.atOrigin, Value.entriesAtOrigin_eq,
    Value.entriesAtOrigin_eq]
  exact hsplice.map fun x => (x.1.atOrigin, x.2.atOrigin)

end Toml

/-- A section that the settings do not know changes nothing but the list of
ignored names, which has its name besides. -/
theorem readDocument_withSection {t₁ t₂ b n : List Char} {r : Reading}
    (h₁ : ∃ t, parse t₁ = .ok t) (h₂ : Document.IsSections t₂)
    (h : readDocument (t₁ ++ '\n' :: t₂) = .ok r) (hn : IsName n)
    (hunknown : String.ofList n ∉ sectionNames)
    (hroot : ∀ t, parse (t₁ ++ '\n' :: t₂) = .ok t → t.get? (String.ofList n) = none)
    (hb : ∃ u, parse b = .ok u) (hpairs : Document.IsPairs b) :
    ∃ r', readDocument (Document.withSection t₁ n b t₂) = .ok r' ∧ r'.settings = r.settings ∧
      Spliced (String.ofList n) (r.ignored.map (·.key)) (r'.ignored.map (·.key)) := by
  obtain ⟨t, ht, hread⟩ := readDocument_eq_ok_iff.1 h
  obtain ⟨v, t', ht', hsplice⟩ := parse_withSection h₁ h₂ ht hn (hroot t ht) hb hpairs
  have hat : Reading.ofTable t.atOrigin = .ok r.atOrigin :=
    Reading.ofTable_atOrigin_eq_ok_iff.2 ⟨r, hread, rfl⟩
  obtain ⟨r₀, hr₀, hmore⟩ := Reading.ofTable_spliced hsplice hunknown hat
  obtain ⟨r', hread', rfl⟩ := Reading.ofTable_atOrigin_eq_ok_iff.1 hr₀
  refine ⟨r', readDocument_eq_ok_iff.2 ⟨t', ht', hread'⟩, hmore.settings, ?_⟩
  simpa using hmore.ignored.map (·.key)

/-- A known field in a section that is not known, between two sections that
are. -/
theorem readDocument_withSection_metrics : ∃ r r',
    readDocument ("[output]\nquiet = true".toList ++ '\n' :: "[target]\narch = []\n".toList) =
      .ok r ∧
    readDocument (Document.withSection "[output]\nquiet = true".toList "metrics".toList
      "quiet = 1\na.b = [\"]\"]".toList "[target]\narch = []\n".toList) = .ok r' ∧
    r'.settings = r.settings ∧
    Spliced (String.ofList "metrics".toList) (r.ignored.map (·.key)) (r'.ignored.map (·.key)) := by
  have h₁ := exists_of_isOk (x := parse "[output]\nquiet = true".toList) (by
    simp only [String.reduceToList]
    decide +kernel)
  have h₂ : Document.IsSections "[target]\narch = []\n".toList := by
    simp only [String.reduceToList]
    exact Document.isSections_bracket _
  obtain ⟨r, hr⟩ := exists_of_isOk (x := readDocument
      ("[output]\nquiet = true".toList ++ '\n' :: "[target]\narch = []\n".toList)) (by
    simp only [String.reduceToList]
    decide +kernel)
  have hn : IsName "metrics".toList := by
    simp only [String.reduceToList]
    decide +kernel
  have hb := exists_of_isOk (x := parse "quiet = 1\na.b = [\"]\"]".toList) (by
    simp only [String.reduceToList]
    decide +kernel)
  have hpairs : Document.IsPairs "quiet = 1\na.b = [\"]\"]".toList := by
    obtain ⟨d, hd⟩ := exists_of_isOk (x := Document.ofText "quiet = 1\na.b = [\"]\"]".toList) (by
      simp only [String.reduceToList]
      decide +kernel)
    have hnone := of_all (fun d => d.sections.isEmpty) hd (by
      simp only [String.reduceToList]
      decide +kernel)
    exact ⟨d, hd, List.isEmpty_iff.1 hnone⟩
  obtain ⟨r', hr', hsame, hignored⟩ := readDocument_withSection h₁ h₂ hr hn (by decide)
    (fun t ht => by
      have hnone := of_all (fun t => (t.get? (String.ofList "metrics".toList)).isNone) ht (by
        simp only [String.reduceToList]
        decide +kernel)
      exact Option.isNone_iff_eq_none.1 hnone) hb hpairs
  exact ⟨r, r', hr, hr', hsame, hignored⟩

/-- Of bare keys only the names can be put there: a section of any other is
refused, whatever is in it. -/
theorem readDocument_withSection_ne_ok {t₁ t₂ n : List Char} {r : Reading}
    (h₁ : ∃ t, parse t₁ = .ok t) (h₂ : Document.IsSections t₂)
    (h : readDocument (t₁ ++ '\n' :: t₂) = .ok r) (hne : n ≠ [])
    (hbare : ∀ c ∈ n, isBare c = true) (hn : ¬ IsName n) (b : List Char) (r' : Reading) :
    readDocument (Document.withSection t₁ n b t₂) ≠ .ok r' := by
  intro hr'
  obtain ⟨s, hs⟩ := h₁
  obtain ⟨d₁, hd₁, -⟩ := parse_eq_ok_iff.1 hs
  obtain ⟨t, ht, -⟩ := readDocument_eq_ok_iff.1 h
  obtain ⟨d, hd, -⟩ := parse_eq_ok_iff.1 ht
  obtain ⟨t', ht', -⟩ := readDocument_eq_ok_iff.1 hr'
  obtain ⟨d', hd', -⟩ := parse_eq_ok_iff.1 ht'
  exact Document.ofText_withSection_ne_ok hd₁ h₂ hd hne hbare hn b d' hd'

/-- A day and a number such as 0e5 are bare keys and no names: put there for a
section that is not known, either has the whole text refused. -/
theorem readDocument_refuses_day_and_padded :
    (∃ t, parse [] = .ok t) ∧ Document.IsSections [] ∧ Document.IsPairs [] ∧
    (∃ r, readDocument ([] ++ '\n' :: []) = .ok r) ∧
    (∀ n ∈ ["2024-01-01".toList, "0e5".toList], (∀ c ∈ n, isBare c = true) ∧
      String.ofList n ∉ sectionNames ∧
      ∀ t, parse ([] ++ '\n' :: []) = .ok t → t.get? (String.ofList n) = none) ∧
    readDocument (Document.withSection [] "2024-01-01".toList [] []) =
      .error (.malformed none ⟨2, 2⟩ "expected identifier") ∧
    readDocument (Document.withSection [] "0e5".toList [] []) =
      .error (.malformed none ⟨2, 2⟩ "zero-padded numbers are not allowed") := by
  have hblank : parse ['\n'] = .ok .empty := rfl
  have hbare : ["2024-01-01".toList, "0e5".toList].all (fun n => n.all isBare) = true := by
    simp only [String.reduceToList]
    decide
  refine ⟨⟨.empty, rfl⟩, Document.isSections_nil, ⟨_, rfl, rfl⟩, ⟨.standard, rfl⟩, ?_, ?_, ?_⟩
  · intro n hn
    refine ⟨?_, ?_, fun t ht => ?_⟩
    · exact List.all_eq_true.1 (List.all_eq_true.1 hbare n hn)
    · revert n
      decide
    · rw [List.nil_append, hblank] at ht
      cases ht
      rfl
  · simp only [String.reduceToList]
    decide +kernel
  · simp only [String.reduceToList]
    decide +kernel

end AuditSettings
