/-
AuditSettings.Proofs.Settings.Sections — a text of sections is accepted.

Sections with different names, each an object that can be written, are
written in one of three spellings and parsed. The text is cut into the
words it was written with, these are read as a document, and the document
comes to a table that shows the sections: under headers, because every
header is new; with dotted keys, because the first key of a section makes
its table and the others find it there; and as inline tables directly.
-/
import AuditSettings.Proofs.Settings.Drafting

namespace AuditSettings

open AuditSettings.Text AuditSettings.Toml

/-! ## Documents with sections -/

/-- The sections as the members of one object. -/
def sectionMembers (ms : List (String × List (String × Json))) : List (String × Json) :=
  ms.map fun m => (m.1, .object m.2)

theorem map_fst_sectionMembers (ms : List (String × List (String × Json))) :
    (sectionMembers ms).map Prod.fst = ms.map Prod.fst := by
  simp [sectionMembers]

theorem names_nodup_of_isSection {m : String × List (String × Json)} (h : IsSection m) :
    (m.2.map Prod.fst).Nodup := by
  have := h.2
  simp only [Json.IsWritable] at this
  exact this.1

theorem membersWritable_of_isSection {m : String × List (String × Json)} (h : IsSection m) :
    Json.MembersWritable m.2 := by
  have := h.2
  simp only [Json.IsWritable] at this
  exact this.2

theorem membersWritable_sectionMembers : ∀ {ms : List (String × List (String × Json))},
    (∀ m ∈ ms, IsSection m) → Json.MembersWritable (sectionMembers ms)
  | [], _ => trivial
  | m :: _, h =>
    ⟨(h m List.mem_cons_self).1, (h m List.mem_cons_self).2,
      membersWritable_sectionMembers fun x hx => h x (List.mem_cons_of_mem _ hx)⟩

/-- A header of one name, new in its document, adds its section. -/
theorem shows_addSection {t : Contents} {done : List (String × Json)} (ht : t.Shows done)
    {s : Section} {m : String × List (String × Json)} (hs : Draft.SectionShows s m)
    (hnew : m.1 ∉ done.map Prod.fst) (hnd : (m.2.map Prod.fst).Nodup) :
    (t.addSection s).Shows (done ++ [(m.1, .object m.2)]) := by
  obtain ⟨⟨l, k, hheading, hk⟩, hpairs⟩ := hs
  obtain ⟨hname, htail⟩ := Key.names_eq_singleton hk
  have hinside : (Expr.contents s.pairs .empty).Shows m.2 :=
    hpairs.contents [] ⟨rfl, .nil⟩ (by simpa using hnd)
  rw [Contents.addSection, hheading]
  simp only [htail, Contents.follow, Contents.openTable, hname, ht.find?_eq_none hnew]
  have := ht.push (k := k.head) (hinside.node hnd l .regular)
  rwa [hname] at this

theorem shows_sections {ss : List Section} {ms : List (String × List (String × Json))}
    (h : List.Forall₂ Draft.SectionShows ss ms) : (∀ m ∈ ms, IsSection m) →
    ∀ {t : Contents} {done : List (String × Json)}, t.Shows done →
    ((done ++ sectionMembers ms).map Prod.fst).Nodup →
    (ss.foldl Contents.addSection t).Shows (done ++ sectionMembers ms) := by
  induction h with
  | nil => intro _ t done ht _; simpa [sectionMembers] using ht
  | @cons s m ss ms hs _ ih =>
    intro hms t done ht hnd
    have hm := hms m List.mem_cons_self
    have hstep := shows_addSection ht hs (name_not_mem hnd) (names_nodup_of_isSection hm)
    have := ih (fun x hx => hms x (List.mem_cons_of_mem _ hx)) hstep
      (by simpa [sectionMembers] using hnd)
    simpa [sectionMembers] using this

theorem contents_append (ps qs : List (Key × Expr)) (t : Contents) :
    Expr.contents (ps ++ qs) t = Expr.contents qs (Expr.contents ps t) := by
  induction ps generalizing t with
  | nil => rfl
  | cons p ps ih => exact ih (t.put p.2.node p.1.head p.1.tail)

theorem shows_dotted {pss : List (List (Key × Expr))} {ms : List (String × List (String × Json))}
    (h : List.Forall₂ (fun ps m => PairsShow [m.1] ps m.2) pss ms) :
    (∀ m ∈ ms, IsSection m ∧ m.2 ≠ []) → ∀ {t : Contents} {done : List (String × Json)},
    t.Shows done → ((done ++ sectionMembers ms).map Prod.fst).Nodup →
    (Expr.contents pss.flatten t).Shows (done ++ sectionMembers ms) := by
  induction h with
  | nil => intro _ t done ht _; simpa [sectionMembers, Expr.contents] using ht
  | @cons ps m pss ms hps _ ih =>
    intro hms t done ht hnd
    obtain ⟨hm, hne⟩ := hms m List.mem_cons_self
    have hstep := hps.contents_dotted hne (names_nodup_of_isSection hm) ht (name_not_mem hnd)
    have := ih (fun x hx => hms x (List.mem_cons_of_mem _ hx)) hstep
      (by simpa [sectionMembers] using hnd)
    simpa [sectionMembers, contents_append] using this

/-- A row of words is a document when reading it ends after an item. -/
theorem ofText_lettering {ws : List Word} (hrow : Row ws) {items : List Item}
    (hread : Draft.empty.read .origin ws = .ok ⟨items, .item true⟩) :
    Document.ofText (lettering ws) = .ok (Document.ofItems items.reverse) := by
  rw [Draft.read] at hread
  rw [Document.ofText, Token.scan, scanFrom_row _ ws hrow, Document.ofTokens, hread]
  rfl

theorem ofText_sections {ms : List (String × List (String × Json))}
    (hms : ∀ m ∈ ms, IsSection m ∧ m.2 ≠ []) (hnd : (ms.map Prod.fst).Nodup) (w : Spelling) :
    ∃ d, Document.ofText (lettering (ms.flatMap w.words)) = .ok d ∧
      d.contents.Shows (sectionMembers ms) := by
  have hsection : ∀ m ∈ ms, IsSection m := fun m hm => (hms m hm).1
  have hmembers : ∀ m ∈ ms, Json.MembersWritable m.2 := fun m hm =>
    membersWritable_of_isSection (hsection m hm)
  have hrow := (LineStart.sections w hsection).1
  have hnames : (([] ++ sectionMembers ms).map Prod.fst).Nodup := by
    rwa [List.nil_append, map_fst_sectionMembers]
  have hempty : Contents.empty.Shows [] := ⟨rfl, .nil⟩
  cases w with
  | headers =>
    obtain ⟨ss, hss, hread⟩ := Draft.read_sections hmembers [] .origin
    refine ⟨_, ofText_lettering hrow hread, ?_⟩
    rw [List.append_nil, List.reverse_reverse, Document.ofItems_flatMap_sectionItems]
    exact shows_sections hss hsection hempty hnames
  | dottedKeys =>
    obtain ⟨pss, hpss, hread⟩ := Draft.read_dotted hmembers [] .origin
    refine ⟨_, ofText_lettering hrow hread, ?_⟩
    rw [List.append_nil, List.reverse_reverse, Document.ofItems_pairItems]
    exact shows_dotted hpss hms hempty hnames
  | inlineTables =>
    have hlines : ms.flatMap Spelling.inlineTables.words =
        (sectionMembers ms).flatMap (lineWords none) := by
      rw [sectionMembers, List.flatMap_map]
      rfl
    obtain ⟨ps, hps, hread⟩ :=
      Draft.read_lines none (membersWritable_sectionMembers hsection) [] .origin
    rw [← hlines] at hread
    refine ⟨_, ofText_lettering hrow hread, ?_⟩
    rw [List.append_nil, List.reverse_reverse, Document.ofItems_pairItems]
    exact PairsShow.contents hps _ hempty hnames

/-- A text of sections is accepted, and its tree shows them. -/
theorem parse_sections {ms : List (String × List (String × Json))}
    (hms : ∀ m ∈ ms, IsSection m ∧ m.2 ≠ []) (hnd : (ms.map Prod.fst).Nodup) (w : Spelling) :
    ∃ t, parse (ms.flatMap w.text) = .ok t ∧
      Value.jsonEntries t.entries = sectionMembers ms := by
  obtain ⟨d, hd, hshows⟩ := ofText_sections hms hnd w
  obtain ⟨t, ht, hjson⟩ := hshows.table (by rwa [map_fst_sectionMembers])
  refine ⟨t, ?_, hjson⟩
  have hletters : lettering (ms.flatMap w.words) = ms.flatMap w.text := by
    simp only [lettering_flatMap, Spelling.lettering_words]
  rw [hletters] at hd
  rw [parse, hd]
  exact ht

end AuditSettings
