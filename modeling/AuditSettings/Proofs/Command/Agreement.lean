/-
AuditSettings.Proofs.Command.Agreement — checking settings and printing
them agree.

The two commands select settings by the same options and load them in the
same way, so they stand and fall together, whatever format is asked for
(`check_agrees_with_print`). A named file must be there, places that are
searched need not. The keys that a check warns about are those that the
summary lists, each by its name and its place, because nothing else that is
noticed on the way is told by default.
-/
import AuditSettings.Command.Run
import AuditSettings.Proofs.Command.Given
import AuditSettings.Proofs.Discovery.SameReading

namespace AuditSettings

open AuditSettings.Text AuditSettings.Policy AuditSettings.Toml

/-! ## The settings that options select -/

/-- Two lists of options that select the same settings: they differ at most
in the format. -/
def SameInputs (given given' : List (Flag × String)) : Prop :=
  ∀ f value, f ≠ .format → ((f, value) ∈ given ↔ (f, value) ∈ given')

namespace Host

/-- The directory of a project: the one that is given, if it can be
resolved, and otherwise the current one. -/
def Resolves (h : Host) (given : List (Flag × String)) (dir : Path) : Prop :=
  (∃ p, (.project, p) ∈ given ∧ h.canonical p = .ok dir) ∨
    (∀ p, (.project, p) ∉ given) ∧ h.currentDir = .ok dir

/-- The settings that some options select can be had: those of the file
that is given, or those in effect for a directory. -/
def Loads (h : Host) (given : List (Flag × String)) (l : Loaded) : Prop :=
  (∃ p, (.file, p) ∈ given ∧ loadExplicit h.disk p = .ok l) ∨
    (∀ p, (.file, p) ∉ given) ∧ ∃ dir, h.Resolves given dir ∧
      loadOrDefault h.disk (.ofDirectories dir h.environment.settingsHome?) = .ok l

end Host

/-- The selection that is made by the values of some options, and the
format among them. -/
def Selects (given : List (Flag × String)) (s : Selection) (format : Option ReportFormat) : Prop :=
  ∃ o : Options, (∀ f value, o.text? f = some value ↔ (f, value) ∈ given) ∧
    o.selection? = some s ∧ o.format = format

/-- The places of a search are those for the directory of the project. -/
theorem Host.searchPaths_eq_ok_iff {h : Host} {project : Option Path}
    {given : List (Flag × String)} (hproject : ∀ p, project = some p ↔ (.project, p) ∈ given)
    {paths : SearchPaths} : h.searchPaths project = .ok paths ↔
      ∃ dir, h.Resolves given dir ∧ paths = .ofDirectories dir h.environment.settingsHome? := by
  unfold searchPaths Resolves
  cases project with
  | some p =>
    have hgiven (p' : Path) : (.project, p') ∈ given ↔ p = p' := by
      rw [← hproject, Option.some.injEq]
    cases hdir : h.canonical p <;> simp [hgiven, hdir, eq_comm]
  | none =>
    have hgiven (p : Path) : (.project, p) ∉ given := by simp [← hproject]
    cases hdir : h.currentDir <;> simp [hgiven, eq_comm]

theorem Selection.load_search_eq_ok_iff {h : Host} {project : Option Path} {l : Loaded} :
    (Selection.search project).load h = .ok l ↔
      ∃ paths, h.searchPaths project = .ok paths ∧ loadOrDefault h.disk paths = .ok l := by
  rw [load]
  cases h.searchPaths project with
  | ok paths => simp [mapError_eq_ok_iff]
  | error reason => simp

/-- What is loaded for a selection is what its options select. -/
theorem Selects.load_eq_ok_iff {given : List (Flag × String)} {s : Selection}
    {format : Option ReportFormat} (hs : Selects given s format) {h : Host} {l : Loaded} :
    s.load h = .ok l ↔ h.Loads given l := by
  obtain ⟨o, hgiven, hselection, -⟩ := hs
  have hfile (p : Path) : o.file = some p ↔ (.file, p) ∈ given := hgiven .file p
  have hproject (p : Path) : o.project = some p ↔ (.project, p) ∈ given := hgiven .project p
  unfold Options.selection? at hselection
  split at hselection
  · cases hselection
  · next p hp _ =>
    cases hselection
    simp [Selection.load, Host.Loads, mapError_eq_ok_iff, ← hfile, hp]
  · next hp =>
    cases hselection
    rw [Selection.load_search_eq_ok_iff, Host.Loads]
    simp only [Host.searchPaths_eq_ok_iff hproject, ← hfile, hp, reduceCtorEq, false_and,
      exists_false, not_false_eq_true, implies_true, true_and, false_or]
    constructor
    · rintro ⟨paths, ⟨dir, hdir, rfl⟩, hl⟩
      exact ⟨dir, hdir, hl⟩
    · rintro ⟨dir, hdir, hl⟩
      exact ⟨_, ⟨dir, hdir, rfl⟩, hl⟩

/-- The same inputs select the same settings. -/
theorem Selects.eq_of_sameInputs {given given' : List (Flag × String)} {s s' : Selection}
    {format format' : Option ReportFormat} (hs : Selects given s format)
    (hs' : Selects given' s' format') (hsame : SameInputs given given') : s = s' := by
  obtain ⟨o, hgiven, hselection, -⟩ := hs
  obtain ⟨o', hgiven', hselection', -⟩ := hs'
  have htext (f : Flag) (hf : f ≠ .format) : o.text? f = o'.text? f :=
    Option.ext fun value => by rw [hgiven, hgiven', hsame f value hf]
  have hfile : o.file = o'.file := htext .file (by decide)
  have hproject : o.project = o'.project := htext .project (by decide)
  rw [Options.selection?, hfile, hproject] at hselection
  exact Option.some.inj (hselection.symm.trans hselection')

theorem Selects.format_eq {given : List (Flag × String)} {s : Selection}
    {format : Option ReportFormat} (hs : Selects given s format) {f : ReportFormat}
    (hf : (.format, Keyword.word f) ∈ given) : format = some f := by
  obtain ⟨o, hgiven, -, rfl⟩ := hs
  obtain ⟨f', hf', hword⟩ := Option.map_eq_some_iff.1 ((hgiven .format _).2 hf)
  rw [hf', Keyword.word_injective _ _ hword]

/-- No settings are had from a file that is missing. -/
theorem Selects.not_loads_of_missing {given : List (Flag × String)} {s : Selection}
    {format : Option ReportFormat} (hs : Selects given s format) {h : Host} {p : Path}
    (hp : (.file, p) ∈ given) (hmissing : Missing h.disk p) : ¬ ∃ l, h.Loads given l := by
  obtain ⟨o, hgiven, -, -⟩ := hs
  rintro ⟨l, ⟨p', hp', hl⟩ | ⟨hnone, -⟩⟩
  · have hsame : some p = some p' := ((hgiven .file p).2 hp).symm.trans ((hgiven .file p').2 hp')
    cases hsame
    obtain ⟨r, hr, -⟩ := exists_of_map_eq_ok hl
    exact not_missing_of_readFile hr hmissing
  · exact hnone p hp

/-- Where all places are missing the standard settings are had. -/
theorem Host.loads_standard {h : Host} {given : List (Flag × String)} {dir : Path}
    (hnone : ∀ p, (.file, p) ∉ given) (hdir : h.Resolves given dir)
    (hmissing : ∀ c ∈ (SearchPaths.ofDirectories dir h.environment.settingsHome?).candidates,
      Missing h.disk c.2) : h.Loads given .standard :=
  .inr ⟨hnone, dir, hdir, loadOrDefault_eq_standard hmissing⟩

/-! ## From arguments to selections -/

/-- The options of a check. -/
def checkFlags : List Flag := [.file, .project]

/-- The options of a print. -/
def printFlags : List Flag := checkFlags ++ [.format]

theorem Options.selects_of_giveAll {given : List (Flag × String)} {o : Options} {s : Selection}
    (hall : Options.none.giveAll given = some o) (hs : o.selection? = some s) :
    Selects given s o.format := by
  refine ⟨o, fun f value => ?_, hs, rfl⟩
  rw [text?_of_giveAll hall]
  cases f <;> simp [text?, none]

namespace Request

variable {args : List String} {given : List (Flag × String)} {c : Command}

/-- A check is of the settings that its options select. -/
theorem selects_of_check (h : ofArguments? ("check" :: args) = some (.command c))
    (hgives : Gives checkFlags args given) :
    ∃ s format, c = .check s ∧ Selects given s format := by
  obtain ⟨o, hall, hfinish⟩ := Options.exists_of_read_of_gives hgives h
  obtain ⟨s, hs, rfl⟩ := Option.map_eq_some_iff.1 hfinish
  exact ⟨s, _, rfl, Options.selects_of_giveAll hall hs⟩

/-- A print is of the settings that its options select, in the format among
them. -/
theorem selects_of_print (h : ofArguments? ("show" :: args) = some (.command c))
    (hgives : Gives printFlags args given) :
    ∃ s format, c = .print s format ∧ Selects given s format := by
  obtain ⟨o, hall, hfinish⟩ := Options.exists_of_read_of_gives hgives h
  obtain ⟨s, hs, rfl⟩ := Option.map_eq_some_iff.1 hfinish
  exact ⟨s, _, rfl, Options.selects_of_giveAll hall hs⟩

/-- Arguments that ask for a check ask for a print of the same settings. -/
theorem print_of_check (h : ofArguments? ("check" :: args) = some (.command c)) :
    ∃ s format, c = .check s ∧ ofArguments? ("show" :: args) = some (.command (.print s format)) := by
  obtain ⟨given, hgives⟩ := Options.exists_gives_of_read h
  obtain ⟨o, hall, hfinish⟩ := Options.exists_of_read_of_gives hgives h
  obtain ⟨s, hs, rfl⟩ := Option.map_eq_some_iff.1 hfinish
  refine ⟨s, o.format, rfl, (Options.read_of_gives (hgives.append [.format])).trans ?_⟩
  rw [hall, Option.bind_some, hs, Option.map_some, Option.map_some]

end Request

/-! ## What is told by default -/

/-- By default warnings are told, and the only warnings are of unknown
keys. -/
theorem Filter.standard_admits_iff (e : Event) :
    Filter.standard.admits e = true ↔ ∃ k, e = .unknownKey k := by
  cases e <;> simp [standard, admits, Event.level, Level.rank]

/-- Among some events is no warning of an unknown key. -/
def Unwarned (es : List Event) : Prop := ∀ k, Event.unknownKey k ∉ es

theorem Unwarned.append {es es' : List Event} (h : Unwarned es) (h' : Unwarned es') :
    Unwarned (es ++ es') := by
  intro k hk
  exact (List.mem_append.1 hk).elim (h k) (h' k)

/-- Without a warning nothing is told by default. -/
theorem Unwarned.filter_eq_nil {es : List Event} (h : Unwarned es) :
    es.filter Filter.standard.admits = [] := by
  refine List.filter_eq_nil_iff.2 fun e he htold => ?_
  obtain ⟨k, rfl⟩ := (Filter.standard_admits_iff e).1 htold
  exact h k he

theorem Visit.unwarned_events (v : Visit) : Unwarned v.events := by
  intro k
  unfold events
  split
  · split <;> simp
  · simp
  · simp

theorem Visit.unwarned_eventsOf (r : Reading) (vs : List Visit) : Unwarned (eventsOf r vs) := by
  induction vs generalizing r with
  | nil => simp [eventsOf, Unwarned]
  | cons v vs ih =>
    rw [eventsOf]
    split
    · next r' _ => exact v.unwarned_events.append (ih r')
    · simp [Unwarned]

theorem unwarned_documentEvents (text : List Char) : Unwarned (documentEvents text) := by
  unfold documentEvents
  split
  · exact Visit.unwarned_eventsOf _ _
  · simp [Unwarned]

theorem unwarned_fileEvents (disk : Disk) (p : Path) : Unwarned (fileEvents disk p) := by
  unfold fileEvents
  split
  · split
    · exact unwarned_documentEvents _
    · simp [Unwarned]
  · simp [Unwarned]

theorem unwarned_discoverEvents (disk : Disk) (places : List (Source × Path)) :
    Unwarned (discoverEvents disk places) := by
  induction places with
  | nil => simp [discoverEvents, Unwarned]
  | cons c rest ih =>
    refine (unwarned_fileEvents disk c.2).append ?_
    split
    · simp [Unwarned]
    · split
      · intro k
        simpa using ih k
      · simp [Unwarned]

theorem unwarned_loadOrDefaultEvents (disk : Disk) (paths : SearchPaths) :
    Unwarned (loadOrDefaultEvents disk paths) := by
  refine (unwarned_discoverEvents disk _).append ?_
  split <;> simp [Unwarned]

/-- Nothing that loading notices is a warning. -/
theorem Selection.unwarned_events (h : Host) (s : Selection) : Unwarned (s.events h) := by
  unfold events
  split
  · exact unwarned_fileEvents _ _
  · split
    · intro k
      simpa using unwarned_loadOrDefaultEvents h.disk _ k
    · simp [Unwarned]

/-- The line of a warning. -/
theorem Event.line_unknownKey (k : IgnoredKey) : (unknownKey k).line =
    "WARN cargo_audit_config: unknown key `" ++ k.key ++ "` at " ++ toString k.location.line ++
      ":" ++ toString k.location.column ++ " is ignored" := by
  have hfront : "WARN" ++ " " ++ "cargo_audit_config" ++ ": " ++ "unknown key `" =
      "WARN cargo_audit_config: unknown key `" := rfl
  change "WARN" ++ " " ++ "cargo_audit_config" ++ ": " ++
    ("unknown key `" ++ k.key ++ "` at " ++ k.location.text ++ " is ignored") = _
  rw [Location.text_eq, ← hfront]
  simp only [String.append_assoc]

/-! ## What the two commands do -/

namespace Command

variable {h : Host} {s : Selection}

theorem run_check_of_ok {l : Loaded} (hl : s.load h = .ok l) :
    (check s).run h = ⟨l.verdict, s.events h ++ l.ignored.map .unknownKey, none⟩ := by
  rw [run, hl]

theorem run_print_of_ok {l : Loaded} (hl : s.load h = .ok l) (format : Option ReportFormat) :
    (print s format).run h =
      ⟨l.text (format.getD l.settings.output.format), s.events h, none⟩ := by
  rw [run, hl]

/-- What fails to load makes both commands fail alike. -/
theorem run_of_error {reason : String} (hl : s.load h = .error reason)
    (format : Option ReportFormat) :
    (check s).run h = ⟨"", s.events h, some reason⟩ ∧
      (print s format).run h = ⟨"", s.events h, some reason⟩ := by
  rw [run, run, hl]
  exact ⟨rfl, rfl⟩

/-- By default a failure tells its reason alone. -/
theorem sideLines_of_error (h : Host) (s : Selection) (reason : String) :
    (Outcome.mk "" (s.events h) (some reason)).sideLines .standard = ["error: " ++ reason] := by
  rw [Outcome.sideLines, (Selection.unwarned_events h s).filter_eq_nil]
  rfl

/-- A check tells of the ignored keys, in their order, and of nothing
else. -/
theorem sideLines_check {l : Loaded} (hl : s.load h = .ok l) :
    ((check s).run h).sideLines .standard = l.ignored.map fun k =>
      "WARN cargo_audit_config: unknown key `" ++ k.key ++ "` at " ++ toString k.location.line ++
        ":" ++ toString k.location.column ++ " is ignored" := by
  have hwarned : (l.ignored.map Event.unknownKey).filter Filter.standard.admits =
      l.ignored.map Event.unknownKey := by
    refine List.filter_eq_self.2 fun e he => ?_
    obtain ⟨k, -, rfl⟩ := List.mem_map.1 he
    exact (Filter.standard_admits_iff _).2 ⟨k, rfl⟩
  rw [run_check_of_ok hl, Outcome.sideLines, List.filter_append,
    (Selection.unwarned_events h s).filter_eq_nil, hwarned, List.nil_append, List.map_map,
    Option.map_none, Option.toList_none, List.append_nil]
  exact List.map_congr_left fun k _ => Event.line_unknownKey k

theorem sideLines_print {l : Loaded} (hl : s.load h = .ok l) (format : Option ReportFormat) :
    ((print s format).run h).sideLines .standard = [] := by
  rw [run_print_of_ok hl, Outcome.sideLines, (Selection.unwarned_events h s).filter_eq_nil]
  rfl

end Command

/-- A key in the list of ignored keys. -/
theorem Report.ignoredLine_eq (k : IgnoredKey) : ignoredLine k ++ "\n" = "* " ++ k.key ++ " (" ++
    toString k.location.line ++ ":" ++ toString k.location.column ++ ")\n" := by
  rw [ignoredLine, Location.text_eq]
  simp only [String.append_assoc]
  rfl

/-- The list of ignored keys has a heading and a line for each of them, and is
not there without any. -/
theorem Report.unlines_ignoredLines (ks : List IgnoredKey) : unlines (ignoredLines ks) =
    if ks = [] then "" else "\n# Ignored keys\n" ++ String.join (ks.map fun k => "* " ++ k.key ++
      " (" ++ toString k.location.line ++ ":" ++ toString k.location.column ++ ")\n") := by
  by_cases h : ks = []
  · rw [h]
    rfl
  · rw [ignoredLines, if_neg (by simpa using h), if_neg h, unlines, List.map_append,
      String.join_append, List.map_map]
    congr 1
    exact congrArg String.join (List.map_congr_left fun k _ => ignoredLine_eq k)

/-- The list of ignored keys ends the summary. -/
theorem Report.summary_eq (l : Loaded) : summary l =
    summary { l with ignored := [] } ++ unlines (ignoredLines l.ignored) := by
  rw [summary, unlines_append, summary]
  exact congrArg (unlines · ++ _) (List.append_nil _).symm

/-- A check and a print of the same settings agree. -/
structure Agree (h : Host) (given given' : List (Flag × String)) (checked printed : Outcome) :
    Prop where
  code_eq : printed.code = checked.code
  /-- They succeed exactly when the settings can be had. -/
  code : checked.code = 0 ∧ (∃ l, h.Loads given l) ∨ checked.code = 1 ∧ ¬ ∃ l, h.Loads given l
  /-- A file that is given must be there. -/
  missing_file : ∀ p, (.file, p) ∈ given → Missing h.disk p → checked.code = 1
  /-- Of the places that are searched none need be there. -/
  missing_places : (∀ p, (.file, p) ∉ given) → ∀ dir, h.Resolves given dir →
    (∀ c ∈ (SearchPaths.ofDirectories dir h.environment.settingsHome?).candidates,
      Missing h.disk c.2) → checked.code = 0
  /-- They fail with nothing printed and for the same reason, and tell the
  same on the side. -/
  failed : checked.code = 1 → checked.output = "" ∧ printed.output = "" ∧
    (∃ reason, checked.failure = some reason ∧ printed.failure = some reason ∧
      checked.sideLines .standard = ["error: " ++ reason] ∧
      printed.sideLines .standard = ["error: " ++ reason]) ∧
    ∀ f, printed.sideLines f = checked.sideLines f
  /-- A check that succeeds warns about every ignored key, by its name and its
  line and column, and tells nothing else. -/
  warned : ∀ l, h.Loads given l → checked.sideLines .standard = l.ignored.map fun k =>
    "WARN cargo_audit_config: unknown key `" ++ k.key ++ "` at " ++ toString k.location.line ++
      ":" ++ toString k.location.column ++ " is ignored"
  /-- A print that succeeds tells nothing, and ends its summary with the same
  keys in the same order. -/
  listed : ∀ l, h.Loads given l → printed.sideLines .standard = [] ∧
    ((.format, "terminal") ∈ given' → printed.output =
      Report.summary { l with ignored := [] } ++
        if l.ignored = [] then "" else "\n# Ignored keys\n" ++
          String.join (l.ignored.map fun k => "* " ++ k.key ++ " (" ++
            toString k.location.line ++ ":" ++ toString k.location.column ++ ")\n"))

/-- Commands with the same selection agree. -/
theorem Command.agree {h : Host} {given given' : List (Flag × String)} {s : Selection}
    {format format' : Option ReportFormat} (hs : Selects given s format)
    (hs' : Selects given' s format') :
    Agree h given given' ((check s).run h) ((print s format').run h) := by
  cases hl : s.load h with
  | ok l =>
    have hloads : h.Loads given l := hs.load_eq_ok_iff.1 hl
    have hcode : ((check s).run h).code = 0 := by
      rw [run_check_of_ok hl]
      rfl
    have hunique (l' : Loaded) (hl' : h.Loads given l') : l = l' :=
      Except.ok.inj (hl.symm.trans (hs.load_eq_ok_iff.2 hl'))
    refine ⟨?_, .inl ⟨hcode, l, hloads⟩, ?_, fun _ _ _ _ => hcode, ?_, ?_, ?_⟩
    · rw [run_check_of_ok hl, run_print_of_ok hl]
      rfl
    · intro p hp hmissing
      exact absurd ⟨l, hloads⟩ (hs.not_loads_of_missing hp hmissing)
    · intro hfailed
      exact absurd (hcode.symm.trans hfailed) (by decide)
    · intro l' hl'
      obtain rfl := hunique l' hl'
      exact sideLines_check hl
    · intro l' hl'
      obtain rfl := hunique l' hl'
      refine ⟨sideLines_print hl format', fun hterminal => ?_⟩
      obtain rfl := hs'.format_eq (f := .terminal) hterminal
      rw [run_print_of_ok hl, Option.getD_some, Loaded.text, Report.summary_eq,
        Report.unlines_ignoredLines]
  | error reason =>
    obtain ⟨hcheck, hprint⟩ := run_of_error hl format'
    have hnot : ¬ ∃ l, h.Loads given l := by
      rintro ⟨l, hloads⟩
      exact absurd (hl.symm.trans (hs.load_eq_ok_iff.2 hloads)) (by simp)
    have hcode : ((check s).run h).code = 1 := by
      rw [hcheck]
      rfl
    have hline := sideLines_of_error h s reason
    refine ⟨?_, .inr ⟨hcode, hnot⟩, fun _ _ _ => hcode, ?_, fun _ => ?_, ?_, ?_⟩
    · rw [hcheck, hprint]
    · intro hnone dir hdir hmissing
      exact absurd ⟨_, Host.loads_standard hnone hdir hmissing⟩ hnot
    · rw [hcheck, hprint]
      exact ⟨rfl, rfl, ⟨reason, rfl, rfl, hline, hline⟩, fun _ => rfl⟩
    · intro l hloads
      exact absurd ⟨l, hloads⟩ hnot
    · intro l hloads
      exact absurd ⟨l, hloads⟩ hnot

/-- Whatever host they run on, a check and a print that are given the same
inputs agree, however these are spelled and whatever format is asked for.
Arguments that a check takes are taken by a print as well. -/
theorem check_agrees_with_print (h : Host) {args args' : List String} {c c' : Command}
    (hcheck : Request.ofArguments? ("check" :: args) = some (.command c))
    (hprint : Request.ofArguments? ("show" :: args') = some (.command c')) :
    (∃ given, Gives checkFlags args given) ∧ (∃ given', Gives printFlags args' given') ∧
      (∃ s format, c = .check s ∧
        Request.ofArguments? ("show" :: args) = some (.command (.print s format))) ∧
      ∀ given given', Gives checkFlags args given → Gives printFlags args' given' →
        SameInputs given given' → Agree h given given' (c.run h) (c'.run h) := by
  refine ⟨Options.exists_gives_of_read hcheck, Options.exists_gives_of_read hprint,
    Request.print_of_check hcheck, fun given given' hgives hgives' hsame => ?_⟩
  obtain ⟨s, format, rfl, hs⟩ := Request.selects_of_check hcheck hgives
  obtain ⟨s', format', rfl, hs'⟩ := Request.selects_of_print hprint hgives'
  obtain rfl := hs.eq_of_sameInputs hs' hsame
  exact Command.agree hs hs'

/-- A key before all sections, a section that no setting is in, and a key that
no setting of its section has. -/
def strayText : String := "top = 0\n[x]\ny = 1\n[output]\n  colour = 2\n"

/-- A disk with this text in one file. -/
def strayDisk : Disk := fun p =>
  if p = "a.toml" then .file (Utf8.encode strayText.toList) else .nothing

/-- A machine with this disk. -/
def strayHost : Host where
  disk := strayDisk
  currentDir := .ok "/w"
  canonical p := .error p
  environment := ⟨none, none⟩

/-- The file is loaded, and its three keys are ignored. -/
theorem exists_loads_stray : ∃ l, strayHost.Loads [(.file, "a.toml")] l ∧
    l.ignored = [⟨"top", ⟨1, 1⟩⟩, ⟨"x", ⟨2, 2⟩⟩, ⟨"output.colour", ⟨5, 3⟩⟩] := by
  have hfile : strayDisk "a.toml" = .file (Utf8.encode strayText.toList) := if_pos rfl
  have hdisk : (strayHost.disk "a.toml").read = .ok (Utf8.encode strayText.toList) := by
    rw [show strayHost.disk = strayDisk from rfl, hfile, Standing.read]
  obtain ⟨r, hr⟩ := exists_of_isOk (x := readDocument strayText.toList) (by
    simp only [strayText, String.reduceToList]
    decide +kernel)
  have hignored := of_all (fun r => decide (r.ignored =
    [⟨"top", ⟨1, 1⟩⟩, ⟨"x", ⟨2, 2⟩⟩, ⟨"output.colour", ⟨5, 3⟩⟩])) hr (by
      simp only [strayText, String.reduceToList]
      decide +kernel)
  have hload : loadExplicit strayHost.disk "a.toml" = .ok (.ofReading .explicit "a.toml" r) := by
    rw [loadExplicit, readFile_of_encode hdisk, hr]
    rfl
  exact ⟨_, .inl ⟨"a.toml", by simp, hload⟩, of_decide_eq_true hignored⟩

/-- The three keys are warned about by a check of the file and listed by a print
of it, each with its own spelling of the options. -/
theorem check_agrees_with_print_of_stray : ∃ c c',
    Request.ofArguments? ["check", "--file", "a.toml"] = some (.command c) ∧
    Request.ofArguments? ["show", "-fterminal", "--file=a.toml", "--"] = some (.command c') ∧
    (c.run strayHost).code = 0 ∧ (c'.run strayHost).code = 0 ∧
    (c.run strayHost).sideLines .standard =
      ["WARN cargo_audit_config: unknown key `top` at 1:1 is ignored",
        "WARN cargo_audit_config: unknown key `x` at 2:2 is ignored",
        "WARN cargo_audit_config: unknown key `output.colour` at 5:3 is ignored"] ∧
    (c'.run strayHost).sideLines .standard = [] ∧
    ∃ front, (c'.run strayHost).output =
      front ++ "\n# Ignored keys\n* top (1:1)\n* x (2:2)\n* output.colour (5:3)\n" := by
  have hcheck : Request.ofArguments? ["check", "--file", "a.toml"] =
    some (.command (.check (.file "a.toml"))) := by decide +kernel
  have hprint : Request.ofArguments? ["show", "-fterminal", "--file=a.toml", "--"] =
    some (.command (.print (.file "a.toml") (some .terminal))) := by decide +kernel
  obtain ⟨-, -, -, hagree⟩ := check_agrees_with_print strayHost hcheck hprint
  have hgives : Gives checkFlags ["--file", "a.toml"] [(.file, "a.toml")] :=
    .apart (by decide) rfl rfl .nil
  have hgives' : Gives printFlags ["-fterminal", "--file=a.toml", "--"]
      [(.format, "terminal"), (.file, "a.toml")] :=
    .joined (by decide) rfl (.joined (by decide) rfl .hyphens)
  have h := hagree _ _ hgives hgives' fun f value hf => by simp [hf]
  obtain ⟨l, hloads, hignored⟩ := exists_loads_stray
  have hwarned := h.warned l hloads
  obtain ⟨hsilent, hlisted⟩ := h.listed l hloads
  rw [hignored] at hwarned hlisted
  obtain ⟨hcode, -⟩ | ⟨-, hnot⟩ := h.code
  · exact ⟨_, _, hcheck, hprint, hcode, h.code_eq.trans hcode, hwarned.trans (by decide +kernel),
      hsilent, _, (hlisted (by simp)).trans (congrArg (_ ++ ·) (by decide +kernel))⟩
  · exact absurd ⟨l, hloads⟩ hnot

end AuditSettings
