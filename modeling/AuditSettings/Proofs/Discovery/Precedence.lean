/-
AuditSettings.Proofs.Discovery.Precedence — the first place that holds
anything decides a search.

A place is passed over only where reading finds nothing. The first that is
not decides alone (`discover_eq_of_first`): settings that can be read there
are in effect as they stand, and whatever is wrong with the file is the
failure of the search (`DecidedBy`). So nothing at a later place can make up
for it, and where the project's file is there the user's is never looked at.
What is said of two disks here says that nothing of one file leaks into the
other.
-/
import AuditSettings.Proofs.Discovery.FirstFound

namespace AuditSettings

open AuditSettings.Text AuditSettings.Toml

/-- Reading a path finds that nothing is there. -/
def Missing (disk : Disk) (p : Path) : Prop := (disk p).read = .error .missing

instance (disk : Disk) (p : Path) : Decidable (Missing disk p) :=
  decidable_of_iff _ Standing.read_eq_missing_iff.symm

theorem not_missing_iff {disk : Disk} {p : Path} :
    ¬ Missing disk p ↔ (disk p).isMissing = false := by
  rw [Missing, Standing.read_eq_missing_iff, Bool.not_eq_true]

/-! ## The place that decides -/

theorem firstFound?_of_split {disk : Disk} {before after : List (Source × Path)}
    {c : Source × Path} (hbefore : ∀ b ∈ before, Missing disk b.2) (hc : ¬ Missing disk c.2) :
    firstFound? disk (before ++ c :: after) = some c := by
  refine List.find?_eq_some_iff_append.2 ⟨?_, before, after, rfl, fun b hb => ?_⟩
  · simpa using not_missing_iff.1 hc
  · simpa using Standing.read_eq_missing_iff.1 (hbefore b hb)

theorem firstFound?_of_missing {disk : Disk} {cs : List (Source × Path)}
    (h : ∀ c ∈ cs, Missing disk c.2) : firstFound? disk cs = none := by
  refine List.find?_eq_none.2 fun c hc => ?_
  simpa using Standing.read_eq_missing_iff.1 (h c hc)

/-- The first place that is not passed over gives the outcome. -/
theorem discover_eq_of_first {disk : Disk} {paths : SearchPaths}
    {before after : List (Source × Path)} {c : Source × Path}
    (hsplit : paths.candidates = before ++ c :: after)
    (hbefore : ∀ b ∈ before, Missing disk b.2) (hc : ¬ Missing disk c.2) :
    discover disk paths = (readFile disk c.2).map (.ofReading c.1 c.2) := by
  rw [discover, discoverIn_eq, hsplit, firstFound?_of_split hbefore hc]

theorem discover_eq_of_missing {disk : Disk} {paths : SearchPaths}
    (h : ∀ c ∈ paths.candidates, Missing disk c.2) :
    discover disk paths = .error (.notFound (paths.candidates.map Prod.snd)) := by
  rw [discover, discoverIn_eq, firstFound?_of_missing h, List.nil_append]

/-- Every search has a place that decides it, or passes over all places. -/
theorem exists_first_or_missing (disk : Disk) (paths : SearchPaths) :
    (∃ before c after, paths.candidates = before ++ c :: after ∧
      (∀ b ∈ before, Missing disk b.2) ∧ ¬ Missing disk c.2) ∨
    ∀ c ∈ paths.candidates, Missing disk c.2 := by
  cases hf : firstFound? disk paths.candidates with
  | none =>
    refine .inr fun c hc => Standing.read_eq_missing_iff.2 ?_
    simpa using List.find?_eq_none.1 hf c hc
  | some c =>
    obtain ⟨hc, before, after, hsplit, hbefore⟩ := List.find?_eq_some_iff_append.1 hf
    refine .inl ⟨before, c, after, hsplit, fun b hb => Standing.read_eq_missing_iff.2 ?_, ?_⟩
    · simpa using hbefore b hb
    · rw [not_missing_iff]
      simpa using hc

/-! ## Searches that find nothing -/

/-- A search says that it found nothing exactly when every place was passed
over, and then it lists all of them. -/
theorem discover_eq_notFound_iff {disk : Disk} {paths : SearchPaths} {searched : List Path} :
    discover disk paths = .error (.notFound searched) ↔
      (∀ c ∈ paths.candidates, Missing disk c.2) ∧ searched = paths.candidates.map Prod.snd := by
  constructor
  · intro h
    rcases exists_first_or_missing disk paths with ⟨before, c, after, hsplit, hbefore, hc⟩ | hall
    · rw [discover_eq_of_first hsplit hbefore hc] at h
      cases hr : readFile disk c.2 with
      | ok r =>
        rw [hr] at h
        cases h
      | error e =>
        rw [hr] at h
        cases h
        exact absurd (readFile_error (not_missing_iff.1 hc) hr).2 (by simp [LoadError.isNotFound])
    · rw [discover_eq_of_missing hall] at h
      cases h
      exact ⟨hall, rfl⟩
  · rintro ⟨hall, rfl⟩
    exact discover_eq_of_missing hall

/-- What is in effect is what the search finds, but for a search that found
nothing. -/
theorem loadOrDefault_eq_discover {disk : Disk} {paths : SearchPaths}
    (h : ¬ ∀ c ∈ paths.candidates, Missing disk c.2) :
    loadOrDefault disk paths = discover disk paths := by
  unfold loadOrDefault
  split
  · next searched hd => exact absurd (discover_eq_notFound_iff.1 hd).1 h
  · rfl

theorem loadOrDefault_eq_standard {disk : Disk} {paths : SearchPaths}
    (h : ∀ c ∈ paths.candidates, Missing disk c.2) :
    loadOrDefault disk paths = .ok .standard := by
  rw [loadOrDefault, discover_eq_of_missing h]

/-! ## What a place decides -/

/-- The outcome of a search that a place decides, by what is read there. -/
inductive DecidedBy (disk : Disk) (source : Source) (p : Path) : Except LoadError Loaded → Prop
  /-- What is there gives no bytes. -/
  | unreadable {reason : String} (hread : (disk p).read = .error (.other reason)) :
      DecidedBy disk source p (.error (.unreadable p reason))
  /-- The bytes are no text; the longest text in front of them tells where. -/
  | noText {bytes : List UInt8} {front : List Char} (hread : (disk p).read = .ok bytes)
      (hinvalid : ¬ ∃ cs, Utf8.encode cs = bytes) (hfront : Utf8.IsLongestText front bytes) :
      DecidedBy disk source p (.error (.malformed (some p) (endOf front) "invalid UTF-8"))
  /-- The text is no document. -/
  | noDocument {text : List Char} {e : SyntaxError}
      (hread : (disk p).read = .ok (Utf8.encode text)) (hparse : parse text = .error e) :
      DecidedBy disk source p (.error (.malformed (some p) e.location e.cause.message))
  /-- A field does not accept its value. -/
  | noSettings {text : List Char} {t : Table} {e : InvalidValue}
      (hread : (disk p).read = .ok (Utf8.encode text)) (hparse : parse text = .ok t)
      (hvalue : Reading.ofTable t = .error e) :
      DecidedBy disk source p (.error
        (.invalidValue (some p) e.key e.expected.text e.found.describe e.found.location))
  /-- The document gives settings. -/
  | settings {text : List Char} {t : Table} {r : Reading}
      (hread : (disk p).read = .ok (Utf8.encode text)) (hparse : parse text = .ok t)
      (hvalue : Reading.ofTable t = .ok r) :
      DecidedBy disk source p (.ok ⟨r.settings, source, some p, r.ignored⟩)

/-- Reading a place that is not passed over has one of these outcomes. -/
theorem decidedBy_of_not_missing {disk : Disk} {p : Path} (source : Source)
    (h : ¬ Missing disk p) :
    DecidedBy disk source p ((readFile disk p).map (.ofReading source p)) := by
  cases hread : (disk p).read with
  | error failure =>
    cases failure with
    | missing => exact absurd hread h
    | other reason =>
      rw [readFile, hread]
      exact .unreadable hread
  | ok bytes =>
    rw [readFile, hread]
    by_cases htext : ∃ text, Utf8.encode text = bytes
    · obtain ⟨text, rfl⟩ := htext
      simp only [readBytes_encode, readDocument, Reading.ofText]
      cases hparse : parse text with
      | error e => exact .noDocument hread hparse
      | ok t =>
        dsimp only
        cases hvalue : Reading.ofTable t with
        | error e => exact .noSettings hread hparse hvalue
        | ok r => exact .settings hread hparse hvalue
    · simp only [readBytes_of_invalid htext]
      exact .noText hread htext (Utf8.isLongestText_decode bytes)

/-! ## Precedence -/

/-- The places of a search are tried in order and nothing is merged. -/
structure Precedence (disk : Disk) (paths : SearchPaths) : Prop where
  /-- The project's place comes first, then the user's if there is one. -/
  order : paths.candidates = (.project, paths.project) ::
    match paths.user with
    | some p => [(.user, p)]
    | none => []
  /-- There is a place that decides, or all are passed over. -/
  decided : (∃ before c after, paths.candidates = before ++ c :: after ∧
      (∀ b ∈ before, Missing disk b.2) ∧ ¬ Missing disk c.2) ∨
    ∀ c ∈ paths.candidates, Missing disk c.2
  /-- What is read at the place that decides tells the outcome. -/
  decides : ∀ before source p after, paths.candidates = before ++ (source, p) :: after →
    (∀ b ∈ before, Missing disk b.2) → ¬ Missing disk p →
      DecidedBy disk source p (discover disk paths)
  /-- What can be read at the place that decides is in effect, from that
  source and path. -/
  reads : ∀ before source p after, paths.candidates = before ++ (source, p) :: after →
    (∀ b ∈ before, Missing disk b.2) → ∀ r, readFile disk p = .ok r →
      discover disk paths = .ok ⟨r.settings, source, some p, r.ignored⟩
  /-- What is wrong at the place that decides is the failure of the search,
  and it is about that path. -/
  fails : ∀ before source p after, paths.candidates = before ++ (source, p) :: after →
    (∀ b ∈ before, Missing disk b.2) → ¬ Missing disk p → ∀ e, readFile disk p = .error e →
      discover disk paths = .error e ∧ e.file? = some p ∧ e.isNotFound = false
  /-- Where something is at the project's path, neither the user's path nor
  anything else on the disk matters. -/
  project_alone : ¬ Missing disk paths.project → ∀ disk' user,
    disk' paths.project = disk paths.project →
      discover disk' ⟨paths.project, user⟩ = discover disk paths
  /-- A search that passes over all places lists them in order. -/
  lists_all : (∀ c ∈ paths.candidates, Missing disk c.2) →
    discover disk paths = .error (.notFound (paths.candidates.map Prod.snd))
  /-- The standard settings take the place of that failure and of nothing
  else. -/
  falls_back : loadOrDefault disk paths =
    if ∀ c ∈ paths.candidates, Missing disk c.2 then .ok ⟨.standard, .defaults, none, []⟩
    else discover disk paths
  /-- What is in effect is never that nothing was found. -/
  never_notFound : ∀ searched, loadOrDefault disk paths ≠ .error (.notFound searched)

/-- A path that can be read is not passed over. -/
theorem not_missing_of_readFile {disk : Disk} {p : Path} {r : Reading}
    (h : readFile disk p = .ok r) : ¬ Missing disk p := by
  intro hp
  rw [readFile, show (disk p).read = .error .missing from hp] at h
  cases h

/-- Where something is at the project's path, that path alone gives the
outcome of the search. -/
theorem discover_eq_of_project {disk : Disk} {project : Path} (user : Option Path)
    (h : ¬ Missing disk project) :
    discover disk ⟨project, user⟩ = (readFile disk project).map (.ofReading .project project) := by
  have hsplit : (SearchPaths.mk project user).candidates = [] ++ (.project, project) ::
      (user.map fun p => (Source.user, p)).toList := rfl
  exact discover_eq_of_first hsplit (by simp) h

/-- Every search on every disk keeps to the order of its places. -/
theorem discover_precedence (disk : Disk) (paths : SearchPaths) : Precedence disk paths := by
  refine ⟨?_, exists_first_or_missing disk paths, ?_, ?_, ?_, ?_, discover_eq_of_missing, ?_, ?_⟩
  · rw [SearchPaths.candidates]
    cases paths.user <;> rfl
  · intro before source p after hsplit hbefore hp
    rw [discover_eq_of_first hsplit hbefore hp]
    exact decidedBy_of_not_missing source hp
  · intro before source p after hsplit hbefore r hr
    rw [discover_eq_of_first hsplit hbefore (not_missing_of_readFile hr), hr]
    rfl
  · intro before source p after hsplit hbefore hp e he
    refine ⟨?_, readFile_error (not_missing_iff.1 hp) he⟩
    rw [discover_eq_of_first hsplit hbefore hp, he]
    rfl
  · intro hproject disk' user hsame
    have hproject' : ¬ Missing disk' paths.project := by rwa [Missing, hsame]
    have hread : readFile disk' paths.project = readFile disk paths.project := by
      rw [readFile, readFile, hsame]
    rw [discover_eq_of_project user hproject', hread]
    exact (discover_eq_of_project paths.user hproject).symm
  · split
    · next hall => exact loadOrDefault_eq_standard hall
    · next hnot => exact loadOrDefault_eq_discover hnot
  · intro searched h
    by_cases hall : ∀ c ∈ paths.candidates, Missing disk c.2
    · rw [loadOrDefault_eq_standard hall] at h
      cases h
    · rw [loadOrDefault_eq_discover hall] at h
      exact hall (discover_eq_notFound_iff.1 h).1

end AuditSettings
