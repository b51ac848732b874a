/-
AuditSettings.Proofs.Settings.FirstOffence — the value that ends a reading.

A reading that fails names one value. It is the first one that is out of
place, where the entries of the root come in their order, an entry of a known
section before its fields, and a field before the items of its array
(`Reading.ofTable_error`). A `Spot` is such a value with all that is read
before it; what comes after it is not part of the spot, and has no say in the
failure.

A word that is not accepted is reported with those that are. The report lists
just these: whoever takes the quoted words out of it has the words that the
field accepts (`quotedWords_text`).
-/
import AuditSettings.Proofs.Settings.Meaning
import AuditSettings.Proofs.Text.QuotedWords

namespace AuditSettings

open AuditSettings.Text AuditSettings.Toml AuditSettings.Policy

/-! ## The first fault of a list -/

section FirstFault

variable {α β ε : Type} {ok : α → Prop} {bad : α → ε → Prop} {e : ε}

/-- A fault of an item, where all items before it are in order. -/
def FirstFault (ok : α → Prop) (bad : α → ε → Prop) (xs : List α) (e : ε) : Prop :=
  ∃ before x after, xs = before ++ x :: after ∧ (∀ y ∈ before, ok y) ∧ bad x e

@[simp] theorem not_firstFault_nil : ¬ FirstFault ok bad [] e := by
  simp [FirstFault]

theorem firstFault_cons {x : α} {xs : List α} :
    FirstFault ok bad (x :: xs) e ↔ bad x e ∨ ok x ∧ FirstFault ok bad xs e := by
  constructor
  · rintro ⟨before, y, after, heq, hbefore, hbad⟩
    cases before with
    | nil =>
      cases heq
      exact .inl hbad
    | cons z before =>
      cases heq
      obtain ⟨hx, hbefore⟩ := List.forall_mem_cons.1 hbefore
      exact .inr ⟨hx, before, y, after, rfl, hbefore, hbad⟩
  · rintro (hbad | ⟨hx, before, y, after, rfl, hbefore, hbad⟩)
    · exact ⟨[], x, xs, rfl, nofun, hbad⟩
    · exact ⟨x :: before, y, after, rfl, List.forall_mem_cons.2 ⟨hx, hbefore⟩, hbad⟩

theorem firstFault_congr {ok' : α → Prop} {bad' : α → ε → Prop} (hok : ∀ x, ok x ↔ ok' x)
    (hbad : ∀ x e, bad x e ↔ bad' x e) {xs : List α} :
    FirstFault ok bad xs e ↔ FirstFault ok' bad' xs e := by
  simp only [FirstFault, hok, hbad]

theorem firstFault_append {xs ys : List α} : FirstFault ok bad (xs ++ ys) e ↔
    FirstFault ok bad xs e ∨ (∀ x ∈ xs, ok x) ∧ FirstFault ok bad ys e := by
  induction xs with
  | nil => simp
  | cons x xs ih =>
    rw [List.cons_append, firstFault_cons, firstFault_cons, ih, List.forall_mem_cons]
    tauto

theorem firstFault_map {f : β → α} {xs : List β} : FirstFault ok bad (xs.map f) e ↔
    FirstFault (fun x => ok (f x)) (fun x => bad (f x)) xs e := by
  induction xs with
  | nil => simp
  | cons x xs ih => rw [List.map_cons, firstFault_cons, firstFault_cons, ih]

theorem firstFault_flatMap {f : β → List α} {xs : List β} :
    FirstFault ok bad (xs.flatMap f) e ↔
      FirstFault (fun x => ∀ y ∈ f x, ok y) (fun x => FirstFault ok bad (f x)) xs e := by
  induction xs with
  | nil => simp
  | cons x xs ih => rw [List.flatMap_cons, firstFault_append, firstFault_cons, ih]

end FirstFault

/-! ## What is asked of a value and of its items -/

namespace Expectation

/-- What is asked of each item of an array. -/
def item? : Expectation → Option Expectation
  | strings => some string
  | keywords words => some (keyword words)
  | table | boolean | string | keyword _ => none

/-- What the report of an item says is asked for. -/
def itemReport : Expectation → Expectation
  | keywords words => keyword words
  | e => e

/-- Whether a value is of the kind asked for, whatever the items of an array
are. -/
def Formed : Expectation → Value → Prop
  | strings, v | keywords _, v => ∃ items, v.items? = some items
  | e, v => e.Met v

end Expectation

/-- A value is reported when it is not what is asked for. -/
def Reports (asked said : Expectation) (v : Value) (m : Mismatch) : Prop :=
  ¬ asked.Met v ∧ m = ⟨said, v⟩

namespace Accept

theorem boolean_eq_error_iff {v : Value} {m : Mismatch} :
    boolean v = .error m ↔ Reports .boolean .boolean v m := by
  rw [boolean, Reports, Expectation.Met]
  cases v.boolean? <;> simp [eq_comm]

theorem string_eq_error_iff {v : Value} {m : Mismatch} :
    string v = .error m ↔ Reports .string .string v m := by
  rw [string, Reports, Expectation.Met]
  cases v.string? <;> simp [eq_comm]

theorem stringItems_eq_error_iff {vs : List Value} {m : Mismatch} : stringItems vs = .error m ↔
    FirstFault Expectation.string.Met (Reports .string .strings) vs m := by
  induction vs with
  | nil => simp [stringItems]
  | cons v vs ih =>
    rw [stringItems, firstFault_cons, ← ih, Reports, Expectation.Met]
    cases v.string? with
    | none => simp [eq_comm]
    | some s => cases stringItems vs <;> simp [Except.map]

variable {α : Type} [Keyword α]

theorem keyword_eq_error_iff {v : Value} {m : Mismatch} : keyword α v = .error m ↔
    Reports (.keyword (Keyword.words α)) (.keyword (Keyword.words α)) v m := by
  rw [Reports, ← keyword_isOk_iff, keyword]
  cases (v.string?.bind Keyword.ofWord? : Option α) <;> simp [eq_comm]

theorem keywordItems_eq_error_iff {vs : List Value} {m : Mismatch} :
    keywordItems α vs = .error m ↔ FirstFault (Expectation.keyword (Keyword.words α)).Met
      (Reports (.keyword (Keyword.words α)) (.keyword (Keyword.words α))) vs m := by
  induction vs with
  | nil => simp [keywordItems]
  | cons v vs ih =>
    rw [keywordItems, firstFault_cons, ← ih, ← keyword_eq_error_iff, ← keyword_isOk_iff]
    cases keyword α v with
    | error e => simp
    | ok a => cases keywordItems α vs <;> simp [Except.map]

end Accept

/-! ## What is asked of a field -/

/-- The fault of an array of which an item is not what is asked for. -/
def ItemsFault (e : Expectation) (v : Value) (m : Mismatch) : Prop :=
  ∃ asked items, e.item? = some asked ∧ v.items? = some items ∧
    FirstFault asked.Met (Reports asked e.itemReport) items m

namespace Accept

theorem strings_eq_error_iff {v : Value} {m : Mismatch} : strings v = .error m ↔
    (¬ Expectation.strings.Formed v ∧ m = ⟨.strings, v⟩) ∨ ItemsFault .strings v m := by
  simp only [strings, ItemsFault, Expectation.Formed, Expectation.item?, Expectation.itemReport,
    Option.some.injEq]
  cases v.items? with
  | none => simp [eq_comm]
  | some items => simp [stringItems_eq_error_iff]

theorem keywords_eq_error_iff {α : Type} [Keyword α] {v : Value} {m : Mismatch} :
    keywords α v = .error m ↔
      (¬ (Expectation.keywords (Keyword.words α)).Formed v ∧
        m = ⟨.keywords (Keyword.words α), v⟩) ∨
      ItemsFault (.keywords (Keyword.words α)) v m := by
  simp only [keywords, ItemsFault, Expectation.Formed, Expectation.item?, Expectation.itemReport,
    Option.some.injEq]
  cases v.items? with
  | none => simp [eq_comm]
  | some items => simp [keywordItems_eq_error_iff]

end Accept

/-- A field does not accept a value that is of another kind than it asks
for, and reports the value; or an array of the right kind, and reports the
first item that is out of place. -/
theorem Field.read_eq_error_iff {f : Field} {v : Value} {m : Mismatch} : f.read v = .error m ↔
    (¬ f.expectation.Formed v ∧ m = ⟨f.expectation, v⟩) ∨ ItemsFault f.expectation v m := by
  have hitems : ∀ e : Expectation, e.item? = none → ¬ ItemsFault e v m := by
    rintro e he ⟨asked, items, hasked, -⟩
    rw [he] at hasked
    cases hasked
  cases f with
  | ignore | arch | os => exact map_eq_error_iff.trans Accept.strings_eq_error_iff
  | informationalWarnings | deny => exact map_eq_error_iff.trans Accept.keywords_eq_error_iff
  | severityThreshold | format =>
    rw [or_iff_left (hitems _ rfl)]
    exact map_eq_error_iff.trans Accept.keyword_eq_error_iff
  | databasePath | databaseUrl =>
    rw [or_iff_left (hitems _ rfl)]
    exact map_eq_error_iff.trans Accept.string_eq_error_iff
  | quiet | showTree | yankedEnabled | updateIndex | fetch | stale =>
    rw [or_iff_left (hitems _ rfl)]
    exact map_eq_error_iff.trans Accept.boolean_eq_error_iff

/-! ## Spots -/

/-- Whether an entry of a section has a value that its field accepts, if
there is such a field. -/
def FieldMet (inSection : String) (e : KeyPart × Value) : Prop :=
  ∀ f, Field.find? inSection e.1.name = some f → f.expectation.Met e.2

/-- Whether an entry of the root is a table of fields that are met, if it is
a section. -/
def EntryMet (e : KeyPart × Value) : Prop :=
  e.1.name ∈ sectionNames → ∃ u, e.2.table? = some u ∧ ∀ e' ∈ u.entries, FieldMet e.1.name e'

/-- A value that a reading comes to, with what it read before: the entries
of the root, in a section the fields of it, and in an array the items of
it. -/
inductive Spot where
  | entry (earlier : List (KeyPart × Value)) (k : KeyPart) (v : Value)
  | field (earlier : List (KeyPart × Value)) (inSection : KeyPart)
      (fields : List (KeyPart × Value)) (k : KeyPart) (v : Value)
  | item (earlier : List (KeyPart × Value)) (inSection : KeyPart)
      (fields : List (KeyPart × Value)) (k : KeyPart) (items : List Value) (v : Value)

namespace Spot

/-- The value at a spot. -/
def value : Spot → Value
  | entry _ _ v | field _ _ _ _ v | item _ _ _ _ _ v => v

/-- The key that the value at a spot is reported under. -/
def key : Spot → String
  | entry _ k _ => k.name
  | field _ s _ k _ | item _ s _ k _ _ => s.name ++ "." ++ k.name

/-- Whether a tree has a spot. What follows the spot may be anything. -/
def In (t : Table) : Spot → Prop
  | entry earlier k v => ∃ later, t.entries = earlier ++ (k, v) :: later
  | field earlier s fields k v => ∃ l fields' later,
      t.entries = earlier ++ (s, .table l (fields ++ (k, v) :: fields')) :: later
  | item earlier s fields k items v => ∃ l l' items' fields' later, t.entries =
      earlier ++ (s, .table l (fields ++ (k, .array l' (items ++ v :: items')) :: fields')) :: later

/-- What is asked of the value at a spot, if it is known there. -/
def asked : Spot → Option Expectation
  | entry _ k _ => if k.name ∈ sectionNames then some .table else none
  | field _ s _ k _ => (Field.find? s.name k.name).map Field.expectation
  | item _ s _ k _ _ => (Field.find? s.name k.name).bind fun f => f.expectation.item?

/-- Whether all that was read before a spot is accepted. -/
def Cleared : Spot → Prop
  | entry earlier _ _ => ∀ e ∈ earlier, EntryMet e
  | field earlier s fields _ _ => (∀ e ∈ earlier, EntryMet e) ∧ ∀ e ∈ fields, FieldMet s.name e
  | item earlier s fields k items _ => (∀ e ∈ earlier, EntryMet e) ∧
      (∀ e ∈ fields, FieldMet s.name e) ∧
      ∀ i ∈ items, ∀ f asked, Field.find? s.name k.name = some f →
        f.expectation.item? = some asked → asked.Met i

/-- Whether the value at a spot is out of place: a section that is no table,
a field of a wrong kind, or an item that an array may not have. -/
def Offends : Spot → InvalidValue → Prop
  | entry _ k v, e => k.name ∈ sectionNames ∧ ¬ Expectation.table.Met v ∧ e = ⟨k.name, .table, v⟩
  | field _ s _ k v, e => ∃ f, Field.find? s.name k.name = some f ∧ ¬ f.expectation.Formed v ∧
      e = ⟨s.name ++ "." ++ k.name, f.expectation, v⟩
  | item _ s _ k _ v, e => ∃ f asked, Field.find? s.name k.name = some f ∧
      f.expectation.item? = some asked ∧ ¬ asked.Met v ∧
      e = ⟨s.name ++ "." ++ k.name, f.expectation.itemReport, v⟩

end Spot

/-! ## The first offence of a tree -/

namespace Visit

/-- Whether a visit fails, and what it reports. -/
def Fails : Visit → InvalidValue → Prop
  | field f key v, e => ∃ m, f.read v = .error m ∧ e = ⟨key, m.expected, m.found⟩
  | unknown _, _ => False
  | misfit key v, e => e = ⟨key, .table, v⟩

theorem visit_eq_error_iff {r : Reading} {x : Visit} {e : InvalidValue} :
    r.visit x = .error e ↔ x.Fails e := by
  cases x with
  | field f key v =>
    rw [Reading.visit, Fails]
    cases f.read v <;> simp [eq_comm]
  | unknown k => simp [Reading.visit, Fails]
  | misfit key v => simp [Reading.visit, Fails, eq_comm]

/-- Some visits fail where the first of them does. -/
theorem foldlM_visit_eq_error_iff {xs : List Visit} {r : Reading} {e : InvalidValue} :
    xs.foldlM Reading.visit r = .error e ↔ FirstFault Fine Fails xs e := by
  induction xs generalizing r with
  | nil => simp [pure, Except.pure]
  | cons x xs ih =>
    rw [List.foldlM_cons, firstFault_cons, ← visit_eq_error_iff (r := r), ← visit_isOk_iff (r := r)]
    cases r.visit x with
    | error e' => simp [bind, Except.bind]
    | ok mid => simp [bind, Except.bind, ih]

theorem fine_ofField_iff {s : String} {e : KeyPart × Value} :
    (ofField s e.1 e.2).Fine ↔ FieldMet s e := by
  rw [ofField, FieldMet]
  cases Field.find? s e.1.name with
  | none => simp [Fine]
  | some f => simp [Fine]

/-- The fault of an entry of a section: that of its field. -/
def FieldFault (inSection : String) (e : KeyPart × Value) (x : InvalidValue) : Prop :=
  ∃ f m, Field.find? inSection e.1.name = some f ∧ f.read e.2 = .error m ∧
    x = ⟨inSection ++ "." ++ e.1.name, m.expected, m.found⟩

theorem fails_ofField_iff {s : String} {e : KeyPart × Value} {x : InvalidValue} :
    (ofField s e.1 e.2).Fails x ↔ FieldFault s e x := by
  rw [ofField, FieldFault]
  cases Field.find? s e.1.name with
  | none => simp [Fails]
  | some f => simp [Fails]

/-! An entry of the root has visits of three kinds. -/

theorem ofEntry_section {e : KeyPart × Value} {u : Table} (h : e.1.name ∈ sectionNames)
    (hu : e.2.table? = some u) :
    ofEntry e.1 e.2 = u.entries.map fun e' => ofField e.1.name e'.1 e'.2 := by
  simp [ofEntry, h, hu]

theorem ofEntry_misfit {e : KeyPart × Value} (h : e.1.name ∈ sectionNames)
    (hu : e.2.table? = none) : ofEntry e.1 e.2 = [.misfit e.1.name e.2] := by
  simp [ofEntry, h, hu]

theorem ofEntry_unknown {e : KeyPart × Value} (h : e.1.name ∉ sectionNames) :
    ofEntry e.1 e.2 = [.unknown ⟨e.1.name, e.1.location⟩] := by
  simp [ofEntry, h]

theorem fine_ofEntry_iff {e : KeyPart × Value} :
    (∀ x ∈ ofEntry e.1 e.2, x.Fine) ↔ EntryMet e := by
  rw [EntryMet]
  by_cases hsection : e.1.name ∈ sectionNames
  · cases hu : e.2.table? with
    | none => simp [ofEntry_misfit hsection hu, hsection, Fine]
    | some u =>
      simp only [ofEntry_section hsection hu, List.forall_mem_map, fine_ofField_iff, hsection,
        Option.some.injEq, exists_eq_left', forall_const]
  · simp [ofEntry_unknown hsection, hsection, Fine]

/-- The fault of an entry of the root: that it is a section and no table, or
that of the first field in it that has one. -/
def EntryFault (e : KeyPart × Value) (x : InvalidValue) : Prop :=
  e.1.name ∈ sectionNames ∧
    ((¬ Expectation.table.Met e.2 ∧ x = ⟨e.1.name, .table, e.2⟩) ∨
      ∃ u, e.2.table? = some u ∧
        FirstFault (FieldMet e.1.name) (FieldFault e.1.name) u.entries x)

theorem firstFault_ofEntry_iff {e : KeyPart × Value} {x : InvalidValue} :
    FirstFault Fine Fails (ofEntry e.1 e.2) x ↔ EntryFault e x := by
  rw [EntryFault]
  by_cases hsection : e.1.name ∈ sectionNames
  · cases hu : e.2.table? with
    | none =>
      simp [ofEntry_misfit hsection hu, hsection, firstFault_cons, Fails, Expectation.Met, hu]
    | some u =>
      rw [ofEntry_section hsection hu, firstFault_map,
        firstFault_congr (fun _ => fine_ofField_iff) fun _ _ => fails_ofField_iff]
      simp [hsection, Expectation.Met, hu]
  · simp [ofEntry_unknown hsection, hsection, firstFault_cons, Fails]

end Visit

/-- A tree is not read for the fault of the first entry that has one. -/
theorem Reading.ofTable_eq_error_iff {t : Table} {e : InvalidValue} :
    ofTable t = .error e ↔ FirstFault EntryMet Visit.EntryFault t.entries e := by
  rw [ofTable, Visit.foldlM_visit_eq_error_iff, Visit.ofTable, firstFault_flatMap]
  exact firstFault_congr (fun _ => Visit.fine_ofEntry_iff) fun _ _ => Visit.firstFault_ofEntry_iff

theorem Toml.Value.eq_array_of_items? {v : Value} {items : List Value} (h : v.items? = some items) :
    ∃ l, v = .array l items := by
  cases v with
  | scalar l s => cases h
  | array l items' => exact ⟨l, congrArg (Value.array l) (Option.some.inj h)⟩
  | table l entries => cases h

theorem Toml.Value.eq_table_of_table? {v : Value} {u : Table} (h : v.table? = some u) :
    ∃ l, v = .table l u.entries := by
  cases v with
  | scalar l s => cases h
  | array l items => cases h
  | table l entries =>
    cases h
    exact ⟨l, rfl⟩

namespace Spot

/-- The fault of an entry is an offence at a spot of it. -/
theorem exists_of_entryFault {t : Table} {earlier later : List (KeyPart × Value)}
    {s : KeyPart × Value} {e : InvalidValue} (hentries : t.entries = earlier ++ s :: later)
    (hearlier : ∀ e ∈ earlier, EntryMet e) (h : Visit.EntryFault s e) :
    ∃ p : Spot, p.In t ∧ p.Cleared ∧ p.Offends e := by
  obtain ⟨s, v⟩ := s
  obtain ⟨hsection, ⟨hnot, rfl⟩ | ⟨u, hu, fields, ⟨k, w⟩, fields', hu', hfields, f, m, hf, hread,
    rfl⟩⟩ := h
  · exact ⟨.entry earlier s v, ⟨later, hentries⟩, hearlier, hsection, hnot, rfl⟩
  · obtain ⟨l, rfl⟩ := Value.eq_table_of_table? hu
    rw [hu'] at hentries
    rcases Field.read_eq_error_iff.1 hread with ⟨hnot, rfl⟩ | ⟨asked, items, hasked, hitems, before,
      i, after, rfl, hbefore, hnot, rfl⟩
    · exact ⟨.field earlier s fields k w, ⟨l, fields', later, hentries⟩, ⟨hearlier, hfields⟩, f, hf,
        hnot, rfl⟩
    · obtain ⟨l', rfl⟩ := Value.eq_array_of_items? hitems
      refine ⟨.item earlier s fields k before i, ⟨l, l', after, fields', later, hentries⟩,
        ⟨hearlier, hfields, fun j hj f' asked' hf' hasked' => ?_⟩, f, asked, hf, hasked, hnot, rfl⟩
      obtain rfl := Option.some.inj (hf.symm.trans hf')
      obtain rfl := Option.some.inj (hasked.symm.trans hasked')
      exact hbefore j hj

/-- A field that is looked up is in a section. -/
theorem section_mem {s name : String} {f : Field} (h : Field.find? s name = some f) :
    s ∈ sectionNames :=
  (Field.find?_eq_some_iff.1 h).1 ▸ f.sectionName_mem

/-- An offence at a spot that is cleared is the first fault of its tree. -/
theorem firstFault {t : Table} {p : Spot} {e : InvalidValue} (hin : p.In t) (hcleared : p.Cleared)
    (hoffends : p.Offends e) : FirstFault EntryMet Visit.EntryFault t.entries e := by
  cases p with
  | entry earlier k v =>
    obtain ⟨later, hentries⟩ := hin
    obtain ⟨hsection, hnot, rfl⟩ := hoffends
    exact ⟨earlier, (k, v), later, hentries, hcleared, hsection, .inl ⟨hnot, rfl⟩⟩
  | field earlier s fields k v =>
    obtain ⟨l, fields', later, hentries⟩ := hin
    obtain ⟨hearlier, hfields⟩ := hcleared
    obtain ⟨f, hf, hnot, rfl⟩ := hoffends
    refine ⟨earlier, _, later, hentries, hearlier, section_mem hf, .inr ⟨_, rfl, fields, (k, v),
      fields', rfl, hfields, f, _, hf, Field.read_eq_error_iff.2 (.inl ⟨hnot, rfl⟩), rfl⟩⟩
  | item earlier s fields k items v =>
    obtain ⟨l, l', items', fields', later, hentries⟩ := hin
    obtain ⟨hearlier, hfields, hitems⟩ := hcleared
    obtain ⟨f, asked, hf, hasked, hnot, rfl⟩ := hoffends
    have hread : f.read (.array l' (items ++ v :: items')) =
        .error ⟨f.expectation.itemReport, v⟩ :=
      Field.read_eq_error_iff.2 (.inr ⟨asked, _, hasked, rfl, items, v, items', rfl,
        fun j hj => hitems j hj f asked hf hasked, hnot, rfl⟩)
    refine ⟨earlier, _, later, hentries, hearlier, section_mem hf, .inr ⟨_, rfl, fields, _, fields',
      rfl, hfields, f, _, hf, hread, rfl⟩⟩

end Spot

/-- A tree is not read for what offends at a spot of it that is cleared. -/
theorem Reading.ofTable_eq_error_iff_spot {t : Table} {e : InvalidValue} :
    ofTable t = .error e ↔ ∃ p : Spot, p.In t ∧ p.Cleared ∧ p.Offends e := by
  rw [ofTable_eq_error_iff]
  constructor
  · rintro ⟨earlier, s, later, hentries, hearlier, hfault⟩
    exact Spot.exists_of_entryFault hentries hearlier hfault
  · rintro ⟨p, hin, hcleared, hoffends⟩
    exact p.firstFault hin hcleared hoffends

/-! ## Reports -/

/-- The report of a word that a field does not accept lists the words that
it does. -/
theorem quotedWords_text {f : Field} {words : List String}
    (h : f.expectation = .keyword words ∨ f.expectation.item? = some (.keyword words)) :
    quotedWords (Expectation.keyword words).text = words := by
  refine quotedWords_append (by decide) (by decide) ?_
  cases f with
  | severityThreshold | format =>
    obtain rfl : Keyword.words _ = words := by simpa [Field.expectation, Expectation.item?] using h
    decide +kernel
  | informationalWarnings | deny =>
    obtain rfl : Keyword.words _ = words := by simpa [Field.expectation, Expectation.item?] using h
    decide +kernel
  | _ => simp [Field.expectation, Expectation.item?] at h

namespace Spot

variable {p : Spot} {e : InvalidValue} {words : List String}

/-- What offends at a spot is the value there, under its key. -/
theorem eq_of_offends (h : p.Offends e) : e.key = p.key ∧ e.found = p.value := by
  cases p with
  | entry earlier k v =>
    obtain ⟨-, -, rfl⟩ := h
    exact ⟨rfl, rfl⟩
  | field earlier s fields k v =>
    obtain ⟨f, -, -, rfl⟩ := h
    exact ⟨rfl, rfl⟩
  | item earlier s fields k items v =>
    obtain ⟨f, asked, -, -, -, rfl⟩ := h
    exact ⟨rfl, rfl⟩

/-- Where a word is asked for, it is the word of a field. -/
theorem exists_field (h : p.asked = some (.keyword words)) : ∃ f : Field,
    f.expectation = .keyword words ∨ f.expectation.item? = some (.keyword words) := by
  cases p with
  | entry earlier k v =>
    rw [asked] at h
    split at h <;> cases h
  | field earlier s fields k v =>
    obtain ⟨f, -, hf⟩ := Option.map_eq_some_iff.1 h
    exact ⟨f, .inl hf⟩
  | item earlier s fields k items v =>
    obtain ⟨f, -, hf⟩ := Option.bind_eq_some_iff.1 h
    exact ⟨f, .inr hf⟩

/-- The report of an item lists words exactly when a word is asked for. -/
theorem itemReport_eq_keyword_iff {x asked : Expectation} (h : x.item? = some asked) :
    x.itemReport = .keyword words ↔ asked = .keyword words := by
  cases x with
  | strings =>
    cases h
    simp [Expectation.itemReport]
  | keywords words' =>
    cases h
    exact Iff.rfl
  | _ => cases h

/-- Where a word is asked for, any value that is none offends. -/
theorem offends_of_not_met (h : p.asked = some (.keyword words))
    (hnot : ¬ (Expectation.keyword words).Met p.value) :
    p.Offends ⟨p.key, .keyword words, p.value⟩ := by
  cases p with
  | entry earlier k v =>
    rw [asked] at h
    split at h <;> cases h
  | field earlier s fields k v =>
    obtain ⟨f, hf, hexpect⟩ := Option.map_eq_some_iff.1 h
    refine ⟨f, hf, ?_, ?_⟩
    · rw [hexpect]
      exact hnot
    · rw [hexpect]
      rfl
  | item earlier s fields k items v =>
    obtain ⟨f, hf, hitem⟩ := Option.bind_eq_some_iff.1 h
    refine ⟨f, _, hf, hitem, hnot, ?_⟩
    rw [(itemReport_eq_keyword_iff hitem).2 rfl]
    rfl

/-- What is reported where a word is asked for is none. -/
theorem not_met_of_offends (h : p.Offends e) (he : e.expected = .keyword words) :
    ¬ (Expectation.keyword words).Met e.found := by
  cases p with
  | entry earlier k v =>
    obtain ⟨-, -, rfl⟩ := h
    cases he
  | field earlier s fields k v =>
    obtain ⟨f, -, hnot, rfl⟩ := h
    dsimp only at he ⊢
    rw [he] at hnot
    exact hnot
  | item earlier s fields k items v =>
    obtain ⟨f, asked, -, hasked, hnot, rfl⟩ := h
    rwa [(itemReport_eq_keyword_iff hasked).1 he] at hnot

end Spot

/-- A tree is not read exactly when something in it is out of place, and the
failure is that of the first such value. It names the key, the kind or the
words asked for, and the value and where it is. It stays the same whatever
follows the value. Where a word is asked for, a string is the fault exactly
when it is none of the words that the failure lists. -/
theorem Reading.ofTable_error {t : Table} :
    (∀ e, ofTable t = .error e ↔ ∃ p : Spot, p.In t ∧ p.Cleared ∧ p.Offends e) ∧
    (∀ (p : Spot) e, p.Cleared → p.Offends e →
      LoadError.ofDocument (.invalidValue e) =
        .invalidValue none p.key e.expected.text p.value.describe p.value.location ∧
      ∀ t', p.In t' → ofTable t' = .error e) ∧
    ∀ (p : Spot) words s, p.In t → p.Cleared → p.asked = some (.keyword words) →
      p.value.string? = some s →
      (ofTable t = .error ⟨p.key, .keyword words, p.value⟩ ↔
        s ∉ quotedWords (Expectation.keyword words).text) := by
  refine ⟨fun e => ofTable_eq_error_iff_spot, fun p e hcleared hoffends => ⟨?_, fun t' hin => ?_⟩,
    fun p words s hin hcleared hasked hs => ?_⟩
  · obtain ⟨hkey, hfound⟩ := Spot.eq_of_offends hoffends
    rw [← hkey, ← hfound]
    rfl
  · exact ofTable_eq_error_iff_spot.2 ⟨p, hin, hcleared, hoffends⟩
  · obtain ⟨f, hf⟩ := Spot.exists_field hasked
    have hmet : (Expectation.keyword words).Met p.value ↔ s ∈ words := by
      simp [Expectation.Met, hs]
    rw [quotedWords_text hf, ← hmet]
    constructor
    · intro herror
      obtain ⟨q, -, -, hoffends⟩ := ofTable_eq_error_iff_spot.1 herror
      exact Spot.not_met_of_offends hoffends rfl
    · intro hnot
      exact ofTable_eq_error_iff_spot.2 ⟨p, hin, hcleared, Spot.offends_of_not_met hasked hnot⟩

/-- The second option of an array, after a section and a field that are not
known. -/
def Spot.secondOption : Spot :=
  .item [(⟨"x", ⟨1, 2⟩⟩, .table ⟨1, 1⟩ [])] ⟨"output", ⟨2, 2⟩⟩
    [(⟨"colour", ⟨3, 1⟩⟩, .scalar ⟨3, 10⟩ (.boolean true))] ⟨"deny", ⟨4, 1⟩⟩
    [.scalar ⟨4, 9⟩ (.string "warnings")] (.scalar ⟨4, 21⟩ (.string "High"))

/-- It is reported whatever comes after it. -/
theorem Reading.ofTable_error_secondOption : Spot.secondOption.Cleared ∧
    ∀ t : Table, Spot.secondOption.In t →
      (ofTable t).mapError (fun e => LoadError.ofDocument (.invalidValue e)) =
        .error (.invalidValue none "output.deny"
          "one of \"warnings\", \"unmaintained\", \"unsound\", \"yanked\"" "\"High\"" ⟨4, 21⟩) := by
  have hcleared : Spot.secondOption.Cleared := by
    refine ⟨?_, ?_, ?_⟩
    · rw [List.forall_mem_singleton]
      exact fun h => absurd h (by decide)
    · rw [List.forall_mem_singleton]
      exact fun f hf => absurd hf (by simp [Field.find?, Field.all, Field.sectionName, Field.name])
    · rw [List.forall_mem_singleton]
      rintro f asked hf hasked
      obtain rfl : Field.deny = f := Option.some.inj hf
      cases hasked
      exact ⟨"warnings", by decide, rfl⟩
  refine ⟨hcleared, fun t hin => ?_⟩
  obtain ⟨-, -, hword⟩ := ofTable_error (t := t)
  have hnone : "High" ∉ quotedWords (Expectation.keyword (Keyword.words Denial)).text := by
    rw [quotedWords_text (f := .deny) (.inr rfl)]
    decide
  rw [(hword _ (Keyword.words Denial) "High" hin hcleared rfl rfl).2 hnone]
  exact congrArg Except.error (by decide +kernel)

end AuditSettings
