/-
AuditSettings.Proofs.Settings.Accepting — which values a field accepts, and
what it makes of them.

A field asks for a kind of value (`Field.expectation`), and
`Expectation.Met` says in full what values are of that kind. For each field
`Means` relates a value to the setting that it stands for: an array of
strings to the set of just these strings, a word to its meaning. Reading a
value succeeds exactly when it is of the kind asked for (`read_isOk_iff`),
and then puts what the value means into the field's own setting and leaves
every other setting alone (`means_of_read`).
-/
import AuditSettings.Proofs.Outcome
import AuditSettings.Settings.Field
import Mathlib.Data.List.Forall2

namespace AuditSettings

open AuditSettings.Text AuditSettings.Toml AuditSettings.Policy

/-! ## Kinds of values -/

/-- Whether a value is of the kind that is asked for. -/
def Expectation.Met : Expectation → Value → Prop
  | table, v => ∃ t, v.table? = some t
  | boolean, v => ∃ b, v.boolean? = some b
  | string, v => ∃ s, v.string? = some s
  | strings, v => ∃ items, v.items? = some items ∧ ∀ i ∈ items, ∃ s, i.string? = some s
  | keyword words, v => ∃ s ∈ words, v.string? = some s
  | keywords words, v => ∃ items, v.items? = some items ∧ ∀ i ∈ items, ∃ s ∈ words, i.string? = some s

/-- An array of which the items are just the members of a set, in the sense
of `reads`. -/
def Toml.Value.Lists {α : Type} [Ord α] (reads : Value → α → Prop) (v : Value)
    (s : OrderedSet α) : Prop :=
  ∃ items, v.items? = some items ∧ (∀ i ∈ items, ∃ a, reads i a) ∧ ∀ a, a ∈ s ↔ ∃ i ∈ items, reads i a

/-- A value that is a given string. -/
def Toml.Value.IsString (v : Value) (s : String) : Prop := v.string? = some s

/-- A value that is the word for a meaning. -/
def Toml.Value.IsWord {α : Type} [Keyword α] (v : Value) (a : α) : Prop :=
  v.string? = some (Keyword.word a)

namespace Field

/-- The kind of value that a field asks for. -/
def expectation : Field → Expectation
  | ignore | arch | os => .strings
  | informationalWarnings => .keywords (Keyword.words Category)
  | severityThreshold => .keyword (Keyword.words Severity)
  | deny => .keywords (Keyword.words Denial)
  | format => .keyword (Keyword.words ReportFormat)
  | quiet | showTree | yankedEnabled | updateIndex | fetch | stale => .boolean
  | databasePath | databaseUrl => .string

/-- What the setting of a field can be. -/
def Content : Field → Type
  | ignore => OrderedSet AdvisoryId
  | informationalWarnings => OrderedSet Category
  | severityThreshold => Severity
  | deny => OrderedSet Denial
  | format => ReportFormat
  | quiet | showTree | yankedEnabled | updateIndex | fetch | stale => Bool
  | databasePath => Option Path
  | databaseUrl => String
  | arch | os => OrderedSet String

/-- What some settings have for a field. -/
def content (s : Settings) : (f : Field) → f.Content
  | ignore => s.advisories.ignore
  | informationalWarnings => s.advisories.informationalWarnings
  | severityThreshold => s.advisories.severityThreshold
  | deny => s.output.deny
  | format => s.output.format
  | quiet => s.output.quiet
  | showTree => s.output.showTree
  | yankedEnabled => s.yanked.enabled
  | updateIndex => s.yanked.updateIndex
  | databasePath => s.database.path
  | databaseUrl => s.database.url
  | fetch => s.database.fetch
  | stale => s.database.stale
  | arch => s.target.arch
  | os => s.target.os

/-- Whether a value stands for a setting of a field. -/
def Means : (f : Field) → Value → f.Content → Prop
  | ignore, v, s => v.Lists Value.IsString s
  | informationalWarnings, v, s => v.Lists Value.IsWord s
  | severityThreshold, v, t => v.IsWord (show Severity from t)
  | deny, v, s => v.Lists Value.IsWord s
  | format, v, f => v.IsWord (show ReportFormat from f)
  | databasePath, v, p => ∃ s, v.IsString s ∧ p = some s
  | databaseUrl, v, s => v.IsString s
  | arch, v, s => v.Lists Value.IsString s
  | os, v, s => v.Lists Value.IsString s
  | quiet, v, b | showTree, v, b | yankedEnabled, v, b | updateIndex, v, b | fetch, v, b
  | stale, v, b => v.boolean? = some b

/-- Settings are told by what they have for every field. -/
theorem settings_ext {s r : Settings} (h : ∀ f, content s f = content r f) : s = r := by
  obtain ⟨⟨ig, iw, st⟩, ⟨de, fo, qu, sh⟩, ⟨en, up⟩, ⟨pa, ur, fe, sta⟩, ⟨ar, tos⟩⟩ := s
  obtain ⟨⟨ig', iw', st'⟩, ⟨de', fo', qu', sh'⟩, ⟨en', up'⟩, ⟨pa', ur', fe', sta'⟩, ⟨ar', tos'⟩⟩ := r
  obtain rfl : ig = ig' := h ignore
  obtain rfl : iw = iw' := h informationalWarnings
  obtain rfl : st = st' := h severityThreshold
  obtain rfl : de = de' := h deny
  obtain rfl : fo = fo' := h format
  obtain rfl : qu = qu' := h quiet
  obtain rfl : sh = sh' := h showTree
  obtain rfl : en = en' := h yankedEnabled
  obtain rfl : up = up' := h updateIndex
  obtain rfl : pa = pa' := h databasePath
  obtain rfl : ur = ur' := h databaseUrl
  obtain rfl : fe = fe' := h fetch
  obtain rfl : sta = sta' := h stale
  obtain rfl : ar = ar' := h arch
  obtain rfl : tos = tos' := h os
  rfl

end Field

/-! ## A value means one thing -/

namespace Toml.Value

theorem IsString.unique {v : Value} {s r : String} (h : v.IsString s) (h' : v.IsString r) :
    s = r :=
  Option.some.inj (h.symm.trans h')

theorem IsWord.unique {α : Type} [Keyword α] {v : Value} {a b : α} (h : v.IsWord a)
    (h' : v.IsWord b) : a = b :=
  Keyword.word_injective a b (Option.some.inj (h.symm.trans h'))

theorem Lists.unique {α : Type} [Ord α] [Std.LawfulEqOrd α] [Std.TransOrd α]
    {reads : Value → α → Prop} {v : Value} {s r : OrderedSet α} (h : v.Lists reads s)
    (h' : v.Lists reads r) : s = r := by
  obtain ⟨items, hitems, -, hs⟩ := h
  obtain ⟨items', hitems', -, hr⟩ := h'
  obtain rfl : items = items' := Option.some.inj (hitems.symm.trans hitems')
  exact OrderedSet.ext fun a => (hs a).trans (hr a).symm

/-- The strings in an array. -/
def strings (v : Value) : List String := (v.items?.getD []).filterMap Value.string?

/-- A set that an array lists has the members whose words the array
holds. -/
theorem Lists.mem_iff {α : Type} [Ord α] {g : α → String} {v : Value}
    {set : OrderedSet α} (h : v.Lists (fun i a => i.string? = some (g a)) set) (a : α) :
    a ∈ set ↔ g a ∈ v.strings := by
  obtain ⟨items, hitems, -, hmem⟩ := h
  simp [hmem, strings, hitems]

end Toml.Value

/-- A value means at most one setting of a field. -/
theorem Field.Means.unique {f : Field} {v : Value} {c c' : f.Content} (h : f.Means v c)
    (h' : f.Means v c') : c = c' := by
  cases f with
  | ignore | arch | os => exact Value.Lists.unique (α := String) h h'
  | informationalWarnings => exact Value.Lists.unique (α := Category) h h'
  | deny => exact Value.Lists.unique (α := Denial) h h'
  | severityThreshold => exact Value.IsWord.unique (α := Severity) (v := v) h h'
  | format => exact Value.IsWord.unique (α := ReportFormat) (v := v) h h'
  | databaseUrl => exact Value.IsString.unique h h'
  | databasePath =>
    obtain ⟨s, hs, rfl⟩ := h
    obtain ⟨r, hr, rfl⟩ := h'
    rw [hs.unique hr]
  | quiet | showTree | yankedEnabled | updateIndex | fetch | stale =>
    exact Option.some.inj (h.symm.trans h')

/-! ## Reading a value -/

theorem exists_of_forall₂_mem {α β : Type} {r : α → β → Prop} {as : List α} {bs : List β}
    (h : List.Forall₂ r as bs) {a : α} (ha : a ∈ as) : ∃ b ∈ bs, r a b := by
  induction h with
  | nil => cases ha
  | cons hr _ ih =>
    rcases List.mem_cons.1 ha with rfl | ha
    · exact ⟨_, List.mem_cons_self, hr⟩
    · obtain ⟨b, hb, hab⟩ := ih ha
      exact ⟨b, List.mem_cons_of_mem _ hb, hab⟩

theorem exists_forall₂_iff {α β : Type} {r : α → β → Prop} {as : List α} :
    (∃ bs, List.Forall₂ r as bs) ↔ ∀ a ∈ as, ∃ b, r a b := by
  constructor
  · rintro ⟨bs, h⟩ a ha
    obtain ⟨b, -, hr⟩ := exists_of_forall₂_mem h ha
    exact ⟨b, hr⟩
  · intro h
    induction as with
    | nil => exact ⟨[], .nil⟩
    | cons a as ih =>
      obtain ⟨b, hb⟩ := h a List.mem_cons_self
      obtain ⟨bs, hbs⟩ := ih fun a ha => h a (List.mem_cons_of_mem _ ha)
      exact ⟨b :: bs, .cons hb hbs⟩

namespace Accept

theorem boolean_eq_ok_iff {v : Value} {b : Bool} : boolean v = .ok b ↔ v.boolean? = some b := by
  rw [boolean]
  split <;> simp_all

theorem string_eq_ok_iff {v : Value} {s : String} : string v = .ok s ↔ v.IsString s := by
  rw [string, Value.IsString]
  split <;> simp_all

theorem stringItems_eq_ok_iff : ∀ {vs : List Value} {names : List String},
    stringItems vs = .ok names ↔ List.Forall₂ Value.IsString vs names
  | [], names => by simp [stringItems, eq_comm]
  | v :: vs, names => by
      rw [stringItems, List.forall₂_cons_left_iff]
      constructor
      · intro h
        split at h
        · next s hs =>
          obtain ⟨rest, hrest, rfl⟩ := exists_of_map_eq_ok h
          exact ⟨s, rest, hs, stringItems_eq_ok_iff.1 hrest, rfl⟩
        · cases h
      · rintro ⟨s, rest, hs, hrest, rfl⟩
        rw [Value.IsString] at hs
        rw [hs, stringItems_eq_ok_iff.2 hrest]
        rfl

variable {α : Type} [Keyword α]

theorem keyword_eq_ok_iff {v : Value} {a : α} : keyword α v = .ok a ↔ v.IsWord a := by
  have hword : v.string?.bind Keyword.ofWord? = some a ↔ v.IsWord a := by
    simp only [Option.bind_eq_some_iff, Keyword.ofWord?_eq_some_iff, Value.IsWord,
      exists_eq_right']
  rw [keyword, ← hword]
  cases (v.string?.bind Keyword.ofWord? : Option α) with
  | none => simp
  | some b => simp

theorem keywordItems_eq_ok_iff : ∀ {vs : List Value} {members : List α},
    keywordItems α vs = .ok members ↔ List.Forall₂ Value.IsWord vs members
  | [], members => by simp [keywordItems, eq_comm]
  | v :: vs, members => by
      rw [keywordItems, List.forall₂_cons_left_iff]
      constructor
      · intro h
        split at h
        · next a ha =>
          obtain ⟨rest, hrest, rfl⟩ := exists_of_map_eq_ok h
          exact ⟨a, rest, keyword_eq_ok_iff.1 ha, keywordItems_eq_ok_iff.1 hrest, rfl⟩
        · cases h
      · rintro ⟨a, rest, ha, hrest, rfl⟩
        rw [keyword_eq_ok_iff.2 ha, keywordItems_eq_ok_iff.2 hrest]
        rfl

/-- The set of what is read off the items of an array lists them. -/
theorem lists_ofList {α : Type} [Ord α] [Std.LawfulEqOrd α] [Std.TransOrd α]
    {reads : Value → α → Prop} {v : Value} {items : List Value} {members : List α}
    (hitems : v.items? = some items) (h : List.Forall₂ reads items members)
    (hone : ∀ {v a b}, reads v a → reads v b → a = b) : v.Lists reads (.ofList members) := by
  refine ⟨items, hitems, fun i hi => ?_, fun a => ?_⟩
  · obtain ⟨a, -, ha⟩ := exists_of_forall₂_mem h hi
    exact ⟨a, ha⟩
  · rw [OrderedSet.mem_ofList]
    constructor
    · intro ha
      obtain ⟨i, hi, hr⟩ := exists_of_forall₂_mem h.flip ha
      exact ⟨i, hi, hr⟩
    · rintro ⟨i, hi, hr⟩
      obtain ⟨b, hb, hr'⟩ := exists_of_forall₂_mem h hi
      rwa [hone hr hr']

theorem strings_eq_ok_iff {v : Value} {names : List String} : strings v = .ok names ↔
    ∃ items, v.items? = some items ∧ List.Forall₂ Value.IsString items names := by
  rw [strings]
  cases v.items? with
  | none => simp
  | some items => simp [stringItems_eq_ok_iff]

theorem keywords_eq_ok_iff {v : Value} {members : List α} : keywords α v = .ok members ↔
    ∃ items, v.items? = some items ∧ List.Forall₂ Value.IsWord items members := by
  rw [keywords]
  cases v.items? with
  | none => simp
  | some items => simp [keywordItems_eq_ok_iff]

/-! Each kind of value is accepted exactly when it is met. -/

theorem boolean_isOk_iff {v : Value} :
    (∃ b, boolean v = .ok b) ↔ Expectation.boolean.Met v := by
  simp only [boolean_eq_ok_iff, Expectation.Met]

theorem string_isOk_iff {v : Value} : (∃ s, string v = .ok s) ↔ Expectation.string.Met v := by
  simp only [string_eq_ok_iff, Expectation.Met, Value.IsString]

theorem strings_isOk_iff {v : Value} :
    (∃ names, strings v = .ok names) ↔ Expectation.strings.Met v := by
  simp only [strings_eq_ok_iff, Expectation.Met]
  rw [exists_comm]
  simp only [exists_and_left, exists_forall₂_iff, Value.IsString]

theorem exists_isWord_iff {v : Value} :
    (∃ a : α, v.IsWord a) ↔ ∃ s ∈ Keyword.words α, v.string? = some s := by
  simp only [Value.IsWord, Keyword.mem_words_iff, Keyword.ofWord?_eq_some_iff]
  constructor
  · rintro ⟨a, ha⟩
    exact ⟨_, ⟨a, rfl⟩, ha⟩
  · rintro ⟨_, ⟨a, rfl⟩, ha⟩
    exact ⟨a, ha⟩

theorem keyword_isOk_iff {v : Value} :
    (∃ a, keyword α v = .ok a) ↔ (Expectation.keyword (Keyword.words α)).Met v := by
  simp only [keyword_eq_ok_iff, Expectation.Met, exists_isWord_iff]

theorem keywords_isOk_iff {v : Value} :
    (∃ members, keywords α v = .ok members) ↔ (Expectation.keywords (Keyword.words α)).Met v := by
  simp only [keywords_eq_ok_iff, Expectation.Met]
  rw [exists_comm]
  simp only [exists_and_left, exists_forall₂_iff, exists_isWord_iff]

end Accept

namespace Field

/-- A field reads a value exactly when it is of the kind that it asks
for. -/
theorem read_isOk_iff {f : Field} {v : Value} : (∃ a, f.read v = .ok a) ↔ f.expectation.Met v := by
  cases f with
  | ignore | arch | os => exact exists_map_eq_ok_iff.trans Accept.strings_isOk_iff
  | informationalWarnings | deny => exact exists_map_eq_ok_iff.trans Accept.keywords_isOk_iff
  | severityThreshold | format => exact exists_map_eq_ok_iff.trans Accept.keyword_isOk_iff
  | databasePath | databaseUrl => exact exists_map_eq_ok_iff.trans Accept.string_isOk_iff
  | quiet | showTree | yankedEnabled | updateIndex | fetch | stale =>
    exact exists_map_eq_ok_iff.trans Accept.boolean_isOk_iff

/-- What a field reads makes its setting what the value means. -/
theorem means_of_read {f : Field} {v : Value} {a : Assignment} (h : f.read v = .ok a)
    (s : Settings) : f.Means v (content (s.assign a) f) := by
  cases f with
  | ignore | arch | os =>
    obtain ⟨names, hnames, rfl⟩ := exists_of_map_eq_ok h
    obtain ⟨items, hitems, hall⟩ := Accept.strings_eq_ok_iff.1 hnames
    exact Accept.lists_ofList hitems hall fun h h' => h.unique h'
  | informationalWarnings | deny =>
    obtain ⟨members, hmembers, rfl⟩ := exists_of_map_eq_ok h
    obtain ⟨items, hitems, hall⟩ := Accept.keywords_eq_ok_iff.1 hmembers
    exact Accept.lists_ofList hitems hall fun h h' => h.unique h'
  | severityThreshold | format =>
    obtain ⟨t, ht, rfl⟩ := exists_of_map_eq_ok h
    exact Accept.keyword_eq_ok_iff.1 ht
  | databasePath =>
    obtain ⟨p, hp, rfl⟩ := exists_of_map_eq_ok h
    exact ⟨p, Accept.string_eq_ok_iff.1 hp, rfl⟩
  | databaseUrl =>
    obtain ⟨u, hu, rfl⟩ := exists_of_map_eq_ok h
    exact Accept.string_eq_ok_iff.1 hu
  | quiet | showTree | yankedEnabled | updateIndex | fetch | stale =>
    obtain ⟨b, hb, rfl⟩ := exists_of_map_eq_ok h
    exact Accept.boolean_eq_ok_iff.1 hb

/-- What a field reads changes no other setting. -/
theorem content_of_read {f g : Field} {v : Value} {a : Assignment} (h : f.read v = .ok a)
    (s : Settings) (hne : g ≠ f) : content (s.assign a) g = content s g := by
  cases f <;> obtain ⟨_, -, rfl⟩ := exists_of_map_eq_ok h <;> cases g <;>
    first | rfl | exact absurd rfl hne

end Field
end AuditSettings
