/-
AuditSettings.Proofs.Discovery.SameReading — a document is read the same
wherever it comes from.

A text can be read as it stands, from a file that is named, or from a file
that a search finds. Each way wraps the one reading of the text in its own
result. What they have in common is a reading, or a fault with an open
place for the file that it is in (`IsDocumentFault`): all of them succeed
with the same settings and ignored keys, or all fail with the same fault,
which names the file if there is one (`readings_agree`).
-/
import AuditSettings.Proofs.Discovery.Precedence
import AuditSettings.Proofs.Outcome

namespace AuditSettings

open AuditSettings.Text

/-- A fault of a document, in whatever file that may be. -/
def IsDocumentFault (fault : Option Path → LoadError) : Prop :=
  (∃ l message, fault = fun file => .malformed file l message) ∨
    ∃ key expected found l, fault = fun file => .invalidValue file key expected found l

/-- The fault of a text is a fault of a document. -/
theorem exists_isDocumentFault (e : DocumentError) : ∃ fault, IsDocumentFault fault ∧
    LoadError.ofDocument e = fault none ∧ ∀ p, (LoadError.ofDocument e).inFile p = fault (some p) := by
  cases e with
  | syntaxError e =>
    exact ⟨fun file => .malformed file e.location e.cause.message, .inl ⟨_, _, rfl⟩, rfl,
      fun _ => rfl⟩
  | invalidValue e =>
    exact ⟨fun file => .invalidValue file e.key e.expected.text e.found.describe e.found.location,
      .inr ⟨_, _, _, _, rfl⟩, rfl, fun _ => rfl⟩

/-- A text has a reading or a fault. -/
theorem readDocument_cases (text : List Char) : (∃ r, readDocument text = .ok r) ∨
    ∃ fault, IsDocumentFault fault ∧ readDocument text = .error (fault none) ∧
      ∀ p, (readDocument text).mapError (LoadError.inFile p) = .error (fault (some p)) := by
  unfold readDocument
  cases Reading.ofText text with
  | ok r => exact .inl ⟨r, rfl⟩
  | error e =>
    obtain ⟨fault, hfault, hnone, hsome⟩ := exists_isDocumentFault e
    exact .inr ⟨fault, hfault, congrArg Except.error hnone, fun p => congrArg Except.error (hsome p)⟩

/-- A file that holds a text is read as that text. -/
theorem readFile_of_encode {disk : Disk} {p : Path} {text : List Char}
    (h : (disk p).read = .ok (Utf8.encode text)) :
    readFile disk p = (readDocument text).mapError (LoadError.inFile p) := by
  rw [readFile, h]
  exact readBytes_encode p text

/-- A text that a file holds at the first place of a search where anything
is gives one reading, or one fault, by every way to read it. -/
theorem readings_agree {disk : Disk} {paths : SearchPaths} {before after : List (Source × Path)}
    {source : Source} {p : Path} {text : List Char}
    (htext : (disk p).read = .ok (Utf8.encode text))
    (hsplit : paths.candidates = before ++ (source, p) :: after)
    (hbefore : ∀ b ∈ before, Missing disk b.2) :
    (∃ r, readDocument text = .ok r ∧ readSettings text = .ok r.settings ∧
      load disk p = .ok r.settings ∧
      loadExplicit disk p = .ok ⟨r.settings, .explicit, some p, r.ignored⟩ ∧
      discover disk paths = .ok ⟨r.settings, source, some p, r.ignored⟩) ∨
    ∃ fault, IsDocumentFault fault ∧ readDocument text = .error (fault none) ∧
      readSettings text = .error (fault none) ∧ load disk p = .error (fault (some p)) ∧
      loadExplicit disk p = .error (fault (some p)) ∧
      discover disk paths = .error (fault (some p)) := by
  have hfile := readFile_of_encode htext
  have hfound : ¬ Missing disk p := by
    rw [Missing, htext]
    simp
  have hdiscover := discover_eq_of_first hsplit hbefore hfound
  rcases readDocument_cases text with ⟨r, hr⟩ | ⟨fault, hfault, hnone, hsome⟩
  · rw [hr] at hfile
    have hread : readFile disk p = .ok r := hfile
    refine .inl ⟨r, hr, ?_, ?_, ?_, ?_⟩
    · rw [readSettings, hr]
      rfl
    · rw [load, hread]
      rfl
    · rw [loadExplicit, hread]
      rfl
    · rw [hdiscover, hread]
      rfl
  · have hread : readFile disk p = .error (fault (some p)) := hfile.trans (hsome p)
    refine .inr ⟨fault, hfault, hnone, ?_, ?_, ?_, ?_⟩
    · rw [readSettings, hnone]
      rfl
    · rw [load, hread]
      rfl
    · rw [loadExplicit, hread]
      rfl
    · rw [hdiscover, hread]
      rfl

/-- A document with a value that its field does not accept. -/
def misfitText : List Char := "[output]\nquiet = 1\n".toList

/-- A disk that holds this document as the user's settings, and nothing
else. -/
def misfitDisk : Disk := fun p =>
  if p = "home/audit.toml" then .file (Utf8.encode misfitText) else .nothing

/-- The user's file is at fault in the same way however it is read. -/
theorem readings_agree_on_misfit :
    (misfitDisk "home/audit.toml").read = .ok (Utf8.encode misfitText) ∧
    Missing misfitDisk "proj/.cargo/audit.toml" ∧
    ∃ fault, IsDocumentFault fault ∧ readDocument misfitText = .error (fault none) ∧
      load misfitDisk "home/audit.toml" = .error (fault (some "home/audit.toml")) ∧
      discover misfitDisk ⟨"proj/.cargo/audit.toml", some "home/audit.toml"⟩ =
        .error (fault (some "home/audit.toml")) := by
  have huser : misfitDisk "home/audit.toml" = .file (Utf8.encode misfitText) := if_pos rfl
  have hproject : misfitDisk "proj/.cargo/audit.toml" = .nothing := if_neg (by decide)
  have htext : (misfitDisk "home/audit.toml").read = .ok (Utf8.encode misfitText) := by
    rw [huser]
    simp only [Standing.read]
  have hmissing : Missing misfitDisk "proj/.cargo/audit.toml" := by
    rw [Missing, hproject, Standing.read]
  have hletters : misfitText = ['[', 'o', 'u', 't', 'p', 'u', 't', ']', '\n', 'q', 'u', 'i', 'e', 't',
      ' ', '=', ' ', '1', '\n'] := String.toList_ofList
  have hfault : (readDocument misfitText).isOk = false := by
    rw [hletters]
    decide +kernel
  have hsplit : (SearchPaths.mk "proj/.cargo/audit.toml" (some "home/audit.toml")).candidates =
      [(.project, "proj/.cargo/audit.toml")] ++ (.user, "home/audit.toml") :: [] := rfl
  refine ⟨htext, hmissing, ?_⟩
  rcases readings_agree htext hsplit (by simpa using hmissing) with ⟨r, hr, -⟩ | h
  · rw [hr] at hfault
    cases hfault
  · obtain ⟨fault, his, hnone, -, hload, -, hdiscover⟩ := h
    exact ⟨fault, his, hnone, hload, hdiscover⟩

end AuditSettings
