/-
AuditSettings.Proofs.Settings.Answers — what an audit is told is what the
document says.

An audit asks its settings whether an advisory is ignored, a severity
reported, a category warned about or denied. Between the document and the
answer lie the words of two vocabularies, sets that are kept in an order of
their own, and for denials a second vocabulary that shares only some of its
words with the first. `Settings.Answers` gives the answers without any of
that: they are read off the strings in the arrays of the document, and off
the order in which the five severities are named.

So the answers know only which strings an array holds
(`readSettings_answers`): neither the order of its items nor how often one
is repeated.
-/
import AuditSettings.Proofs.Settings.Meaning

namespace AuditSettings

open AuditSettings.Toml AuditSettings.Policy

/-! ## What a document says -/

/-- The strings in the array of a field, as a document has them. -/
def Field.strings (f : Field) (t : Table) : List String :=
  (((f.value? t).bind Value.items?).getD []).filterMap Value.string?

/-- The words for the severities, the least severe first. -/
def severityOrder : List String := ["none", "low", "medium", "high", "critical"]

/-- The least severity that a document wants reported, and `none` if it does
not say. -/
def Toml.Table.threshold (t : Table) : String :=
  ((Field.severityThreshold.value? t).bind Value.string?).getD "none"

/-- Whether settings answer as a document says. -/
structure Settings.Answers (s : Settings) (t : Table) : Prop where
  /-- The advisories in the array are ignored, and no others. -/
  ignored : ∀ id, s.advisories.isIgnored id = true ↔ id ∈ Field.ignore.strings t
  /-- The categories in the array are warned about, and without an array the
  two that it has by default. -/
  warned : ∀ c, s.advisories.warnsAbout c = true ↔
    Keyword.word c ∈ Field.informationalWarnings.strings t ∨
      Field.informationalWarnings.value? t = none ∧ (c = .unmaintained ∨ c = .unsound)
  /-- The categories in the array are denied, and all of them if it holds
  `warnings`. -/
  denied : ∀ c, s.output.denies c = true ↔
    "warnings" ∈ Field.deny.strings t ∨ Keyword.word c ∈ Field.deny.strings t
  /-- The severities from the threshold on are reported. -/
  reported : t.threshold ∈ severityOrder ∧ ∀ x : Severity, s.advisories.reports x = true ↔
    ¬ severityOrder.idxOf (Keyword.word x) < severityOrder.idxOf t.threshold

/-- Whether two documents have the same strings in the array of a field, in
whatever order and number, or both no such array. -/
def Field.SameItems (f : Field) (t t' : Table) : Prop :=
  (f.value? t = none ↔ f.value? t' = none) ∧ ∀ s, s ∈ f.strings t ↔ s ∈ f.strings t'

/-- Whether two settings give the same answers. -/
structure Settings.AnswerAlike (s s' : Settings) : Prop where
  ignored : ∀ id, s.advisories.isIgnored id = s'.advisories.isIgnored id
  warned : ∀ c, s.advisories.warnsAbout c = s'.advisories.warnsAbout c
  denied : ∀ c, s.output.denies c = s'.output.denies c
  reported : ∀ x, s.advisories.reports x = s'.advisories.reports x

/-! ## Sets of strings -/

theorem not_mem_empty {α : Type} [Ord α] (a : α) : a ∉ (OrderedSet.empty : OrderedSet α) :=
  List.not_mem_nil

/-- A set that an array lists, or that stands in for a missing one, has the
members whose words the array holds. -/
theorem Field.mem_of_told {α : Type} [Ord α] {f : Field} {t : Table} (word : α → String)
    (set default : OrderedSet α)
    (h : match f.value? t with
      | some v => v.Lists (fun i a => i.string? = some (word a)) set
      | none => set = default) (a : α) :
    a ∈ set ↔ word a ∈ f.strings t ∨ f.value? t = none ∧ a ∈ default := by
  rw [strings]
  cases hv : f.value? t with
  | none =>
    rw [hv] at h
    simp [h]
  | some v =>
    rw [hv] at h
    have hmem : a ∈ set ↔ word a ∈ v.strings := h.mem_iff a
    simpa [Value.strings] using hmem

namespace Field

variable {t : Table} {s : Settings}

theorem mem_ignore_iff (h : ignore.Told t s) (id : AdvisoryId) :
    id ∈ s.advisories.ignore ↔ id ∈ ignore.strings t := by
  have hmem := mem_of_told (fun id => id) s.advisories.ignore .empty h id
  simpa only [not_mem_empty, and_false, or_false] using hmem

theorem mem_informationalWarnings_iff (h : informationalWarnings.Told t s) (c : Category) :
    c ∈ s.advisories.informationalWarnings ↔ Keyword.word c ∈ informationalWarnings.strings t ∨
      informationalWarnings.value? t = none ∧ (c = .unmaintained ∨ c = .unsound) := by
  have hmem := mem_of_told Keyword.word s.advisories.informationalWarnings
    (.ofList [.unmaintained, .unsound]) h c
  simpa only [OrderedSet.mem_ofList, List.mem_cons, List.not_mem_nil, or_false] using hmem

theorem mem_deny_iff (h : deny.Told t s) (d : Denial) :
    d ∈ s.output.deny ↔ Keyword.word d ∈ deny.strings t := by
  have hmem := mem_of_told Keyword.word s.output.deny .empty h d
  simpa only [not_mem_empty, and_false, or_false] using hmem

/-- The array of denials holds only words that deny something. -/
theorem exists_denial_of_mem (h : deny.Told t s) {w : String} (hw : w ∈ deny.strings t) :
    ∃ d : Denial, Keyword.word d = w := by
  rw [strings] at hw
  cases hv : deny.value? t with
  | none => simp [hv] at hw
  | some v =>
    rw [Told, hv] at h
    obtain ⟨items, hitems, hall, -⟩ := h
    rw [hv, Option.bind_some, hitems, Option.getD_some] at hw
    obtain ⟨i, hi, hstring⟩ := List.mem_filterMap.1 hw
    obtain ⟨d, hd⟩ := hall i hi
    exact ⟨d, Option.some.inj (hd.symm.trans hstring)⟩

/-- The threshold is the word in the document. -/
theorem word_severityThreshold (h : severityThreshold.Told t s) :
    Keyword.word s.advisories.severityThreshold = t.threshold := by
  unfold Table.threshold
  cases hv : severityThreshold.value? t with
  | none =>
    rw [Told, hv] at h
    have hnone : s.advisories.severityThreshold = .none := h
    rw [hnone]
    rfl
  | some v =>
    rw [Told, hv] at h
    have hword : v.string? = some (Keyword.word s.advisories.severityThreshold) := h
    simp [hword]

end Field

/-! ## The answers -/

namespace Policy

/-- A category other than a notice is denied by its own word, and no denial
has the word of a notice. -/
theorem Category.denial?_eq_some_iff {c : Category} {d : Denial} :
    c.denial? = some d ↔ Keyword.word d = Keyword.word c := by
  cases c <;> cases d <;> decide

/-- The severities are in the order of their words. -/
theorem Severity.le_iff (x y : Severity) : x ≤ y ↔
    ¬ severityOrder.idxOf (Keyword.word y) < severityOrder.idxOf (Keyword.word x) := by
  cases x <;> cases y <;> decide

theorem Severity.word_mem (x : Severity) : Keyword.word x ∈ severityOrder := by
  cases x <;> decide

end Policy

/-- A category is denied together with all others or by a word of its
own. -/
theorem Output.denies_iff {o : Output} {c : Category} : o.denies c = true ↔
    .warnings ∈ o.deny ∨ ∃ d ∈ o.deny, Keyword.word d = Keyword.word c := by
  rw [denies, Bool.or_eq_true, decide_eq_true_iff, Option.any_eq_true]
  simp only [Category.denial?_eq_some_iff, decide_eq_true_iff]
  exact or_congr_right ⟨fun ⟨d, hd, hmem⟩ => ⟨d, hmem, hd⟩, fun ⟨d, hmem, hd⟩ => ⟨d, hd, hmem⟩⟩

/-- Settings that a document tells answer as it says. -/
theorem Settings.answers_of_told {t : Table} {s : Settings} (h : ∀ f : Field, f.Told t s) :
    s.Answers t where
  ignored id := by
    rw [Advisories.isIgnored, decide_eq_true_iff]
    exact Field.mem_ignore_iff (h _) id
  warned c := by
    rw [Advisories.warnsAbout, decide_eq_true_iff]
    exact Field.mem_informationalWarnings_iff (h _) c
  denied c := by
    rw [Output.denies_iff, Field.mem_deny_iff (h _)]
    refine or_congr Iff.rfl ⟨?_, fun hmem => ?_⟩
    · rintro ⟨d, hmem, hword⟩
      rw [← hword]
      exact (Field.mem_deny_iff (h _) d).1 hmem
    · obtain ⟨d, hword⟩ := Field.exists_denial_of_mem (h _) hmem
      rw [← hword] at hmem
      exact ⟨d, (Field.mem_deny_iff (h _) d).2 hmem, hword⟩
  reported := by
    have hword := Field.word_severityThreshold (h _)
    rw [← hword]
    refine ⟨Severity.word_mem _, fun x => ?_⟩
    rw [Advisories.reports, decide_eq_true_iff]
    exact Severity.le_iff _ x

/-- Settings that answer as documents that say the same give the same
answers. -/
theorem Settings.Answers.alike {t t' : Table} {s s' : Settings} (h : s.Answers t)
    (h' : s'.Answers t') (hignore : Field.ignore.SameItems t t')
    (hwarn : Field.informationalWarnings.SameItems t t') (hdeny : Field.deny.SameItems t t')
    (hthreshold : t.threshold = t'.threshold) : s.AnswerAlike s' where
  ignored id := Bool.eq_iff_iff.2 (by rw [h.ignored, h'.ignored, hignore.2])
  warned c := Bool.eq_iff_iff.2 (by rw [h.warned, h'.warned, hwarn.1, hwarn.2])
  denied c := Bool.eq_iff_iff.2 (by rw [h.denied, h'.denied, hdeny.2, hdeny.2])
  reported x := Bool.eq_iff_iff.2 (by rw [h.reported.2, h'.reported.2, hthreshold])

/-- The settings of a text answer as the text says, and so do those of any
other text alike, in which the same items may stand in another order and more
than once. -/
theorem readSettings_answers {text : List Char} {s : Settings} (h : readSettings text = .ok s) :
    ∃ t, parse text = .ok t ∧ s.Answers t ∧
      ∀ text' s', readSettings text' = .ok s' → ∃ t', parse text' = .ok t' ∧
        (Field.ignore.SameItems t t' → Field.informationalWarnings.SameItems t t' →
          Field.deny.SameItems t t' → t.threshold = t'.threshold → s.AnswerAlike s') := by
  obtain ⟨t, ht, htold⟩ := told_of_readSettings h
  have hanswers := Settings.answers_of_told htold
  refine ⟨t, ht, hanswers, fun text' s' h' => ?_⟩
  obtain ⟨t', ht', htold'⟩ := told_of_readSettings h'
  exact ⟨t', ht', hanswers.alike (Settings.answers_of_told htold')⟩

/-- Two advisories, one of them twice, and the same two in their order. -/
theorem readSettings_answers_repeated : ∃ s s',
    readSettings "[advisories]\nignore = ['b', 'a', 'b']\nseverity_threshold = 'high'\n".toList =
      .ok s ∧
    readSettings "advisories.severity_threshold = 'high'\nadvisories.ignore = ['a', 'b']\n".toList =
      .ok s' ∧
    s.advisories.isIgnored "b" = true ∧ s.advisories.isIgnored "B" = false ∧
    s.advisories.warnsAbout .unsound = true ∧ s.output.denies .notice = false ∧
    s.advisories.reports .medium = false ∧ s.advisories.reports .critical = true ∧
    s.AnswerAlike s' := by
  obtain ⟨s, hs⟩ := exists_of_isOk (x := readSettings
      "[advisories]\nignore = ['b', 'a', 'b']\nseverity_threshold = 'high'\n".toList) (by
    simp only [String.reduceToList]
    decide +kernel)
  obtain ⟨s', hs'⟩ := exists_of_isOk (x := readSettings
      "advisories.severity_threshold = 'high'\nadvisories.ignore = ['a', 'b']\n".toList) (by
    simp only [String.reduceToList]
    decide +kernel)
  obtain ⟨t, ht, hanswers, hothers⟩ := readSettings_answers hs
  obtain ⟨t', ht', halike⟩ := hothers _ _ hs'
  have hsays := of_all (fun t => decide (Field.ignore.strings t = ["b", "a", "b"]) &&
    (Field.informationalWarnings.value? t).isNone && (Field.deny.value? t).isNone &&
    t.threshold == "high") ht (by
      simp only [String.reduceToList]
      decide +kernel)
  have hsays' := of_all (fun t => decide (Field.ignore.strings t = ["a", "b"]) &&
    (Field.informationalWarnings.value? t).isNone && (Field.deny.value? t).isNone &&
    t.threshold == "high") ht' (by
      simp only [String.reduceToList]
      decide +kernel)
  simp only [Bool.and_eq_true, decide_eq_true_eq, Option.isNone_iff_eq_none, beq_iff_eq]
    at hsays hsays'
  obtain ⟨⟨⟨hignore, hwarn⟩, hdeny⟩, hthreshold⟩ := hsays
  obtain ⟨⟨⟨hignore', hwarn'⟩, hdeny'⟩, hthreshold'⟩ := hsays'
  have hnostrings {f : Field} {u : Table} (hf : f.value? u = none) : f.strings u = [] := by
    simp [Field.strings, hf]
  have hsome {f : Field} {u : Table} (hf : f.strings u ≠ []) : f.value? u ≠ none :=
    fun hvalue => hf (hnostrings hvalue)
  refine ⟨s, s', hs, hs', ?_, ?_, ?_, ?_, ?_, ?_, halike ⟨?_, ?_⟩ ⟨?_, ?_⟩ ⟨?_, ?_⟩ ?_⟩
  · exact (hanswers.ignored _).2 (by simp [hignore])
  · exact Bool.eq_false_iff.2 fun h => by simpa [hignore] using (hanswers.ignored _).1 h
  · exact (hanswers.warned _).2 (.inr ⟨hwarn, .inr rfl⟩)
  · exact Bool.eq_false_iff.2 fun h => by simpa [hnostrings hdeny] using (hanswers.denied _).1 h
  · refine Bool.eq_false_iff.2 fun h => (hanswers.reported.2 _).1 h ?_
    rw [hthreshold]
    decide
  · refine (hanswers.reported.2 _).2 ?_
    rw [hthreshold]
    decide
  · exact iff_of_false (hsome (by simp [hignore])) (hsome (by simp [hignore']))
  · intro w
    simp only [hignore, hignore', List.mem_cons, List.not_mem_nil, or_false]
    exact ⟨fun h => h.elim .inr id, .inr⟩
  · simp [hwarn, hwarn']
  · simp [hnostrings hwarn, hnostrings hwarn']
  · simp [hdeny, hdeny']
  · simp [hnostrings hdeny, hnostrings hdeny']
  · rw [hthreshold, hthreshold']

end AuditSettings
