/-
AuditSettings.Proofs.Discovery.FirstFound — which place a search takes.

A search goes through its places in order and passes over those where
reading finds nothing. `discoverIn_eq` says that this is all it does: the
first place that is not passed over gives the outcome, be it settings or a
failure, and no place after it is looked at.
-/
import AuditSettings.Discovery.Search
import AuditSettings.Proofs.Text.Decoding

namespace AuditSettings

open AuditSettings.Text

namespace LoadError

/-- The file that a failure is about. A search that found nothing is about
no single file. -/
def file? : LoadError → Option Path
  | notFound _ => none
  | malformed p _ _ => p
  | invalidValue p _ _ _ _ => p
  | unreadable p _ => some p

theorem file?_inFile_ofDocument (p : Path) (e : DocumentError) :
    ((ofDocument e).inFile p).file? = some p := by
  cases e <;> rfl

theorem isNotFound_inFile_ofDocument (p : Path) (e : DocumentError) :
    ((ofDocument e).inFile p).isNotFound = false := by
  cases e <;> rfl

end LoadError

/-- Reading the path finds nothing there. -/
def Standing.isMissing (s : Standing) : Bool := s == .nothing

theorem Standing.read_eq_missing_iff {s : Standing} :
    s.read = .error .missing ↔ s.isMissing = true := by
  cases s <;> simp [Standing.read, Standing.isMissing]

/-! ## One file -/

/-- The bytes of a text are read as that text. -/
theorem readBytes_encode (p : Path) (text : List Char) :
    readBytes p (Utf8.encode text) = (readDocument text).mapError (LoadError.inFile p) := by
  simp only [readBytes, Utf8.decode_encode]

/-- Bytes that are no text are faulted just past the longest text in front
of them. -/
theorem readBytes_of_invalid {bytes : List UInt8} (h : ¬ ∃ cs, Utf8.encode cs = bytes) (p : Path) :
    readBytes p bytes =
      .error (.malformed (some p) (endOf (Utf8.decode bytes).1) "invalid UTF-8") := by
  rw [Utf8.exists_encode_eq_iff] at h
  rw [readBytes]
  split
  · next cs heq => exact absurd (congrArg Prod.snd heq) h
  · next cs b rest heq => rw [heq]

/-- A document's fault is about the file that holds it, and never that
nothing was there. -/
theorem readBytes_error {p : Path} {bytes : List UInt8} {e : LoadError}
    (h : readBytes p bytes = .error e) : e.file? = some p ∧ e.isNotFound = false := by
  unfold readBytes at h
  split at h
  · next cs _ =>
    unfold readDocument at h
    cases hr : Reading.ofText cs with
    | ok r =>
      rw [hr] at h
      cases h
    | error d =>
      rw [hr] at h
      cases h
      exact ⟨LoadError.file?_inFile_ofDocument p d, LoadError.isNotFound_inFile_ofDocument p d⟩
  · simp only [Except.error.injEq] at h
    subst h
    exact ⟨rfl, rfl⟩

theorem readFile_of_isMissing {disk : Disk} {p : Path} (h : (disk p).isMissing = true) :
    readFile disk p = .error (.notFound [p]) := by
  rw [readFile, Standing.read_eq_missing_iff.mpr h]

/-- Where something stands, a failure is about that path. -/
theorem readFile_error {disk : Disk} {p : Path} {e : LoadError}
    (hp : (disk p).isMissing = false) (h : readFile disk p = .error e) :
    e.file? = some p ∧ e.isNotFound = false := by
  unfold readFile at h
  split at h
  · exact readBytes_error h
  · next hm =>
    rw [Standing.read_eq_missing_iff.mp hm] at hp
    exact absurd hp (by decide)
  · simp only [Except.error.injEq] at h
    subst h
    exact ⟨rfl, rfl⟩

/-- The search passes over a path exactly where nothing stands. -/
theorem readFile_isNotFound_iff {disk : Disk} {p : Path} :
    (∃ e, readFile disk p = .error e ∧ e.isNotFound = true) ↔ (disk p).isMissing = true := by
  constructor
  · rintro ⟨e, he, hn⟩
    cases hp : (disk p).isMissing with
    | true => rfl
    | false =>
      rw [(readFile_error hp he).2] at hn
      exact absurd hn (by decide)
  · intro hp
    exact ⟨_, readFile_of_isMissing hp, rfl⟩

/-! ## Several places -/

/-- The first place that a search does not pass over. -/
def firstFound? (disk : Disk) (cs : List (Source × Path)) : Option (Source × Path) :=
  cs.find? fun c => !(disk c.2).isMissing

/-- A search has the outcome of the first place that it does not pass
over; without one it lists every place it tried. -/
theorem discoverIn_eq (disk : Disk) : ∀ (cs : List (Source × Path)) (searched : List Path),
    discoverIn disk searched cs =
      match firstFound? disk cs with
      | some c => (readFile disk c.2).map (.ofReading c.1 c.2)
      | none => .error (.notFound (searched ++ cs.map Prod.snd))
  | [], searched => by simp [discoverIn, firstFound?]
  | (source, p) :: cs, searched => by
      by_cases hp : (disk p).isMissing = true
      · have hf : firstFound? disk ((source, p) :: cs) = firstFound? disk cs := by
          simp [firstFound?, hp]
        rw [discoverIn, readFile_of_isMissing hp, hf]
        simp [LoadError.isNotFound, discoverIn_eq disk cs (searched ++ [p])]
      · have hp' : (disk p).isMissing = false := by simpa using hp
        have hf : firstFound? disk ((source, p) :: cs) = some (source, p) := by
          simp [firstFound?, hp']
        rw [discoverIn, hf]
        cases hr : readFile disk p with
        | ok r => simp [hr, Except.map]
        | error e => simp [hr, (readFile_error hp' hr).2, Except.map]

/-- What is in effect is what the first place gives that the search does
not pass over, and otherwise the standard settings. -/
theorem loadOrDefault_eq (disk : Disk) (paths : SearchPaths) :
    loadOrDefault disk paths =
      match firstFound? disk paths.candidates with
      | some c => (readFile disk c.2).map (.ofReading c.1 c.2)
      | none => .ok .standard := by
  have hd := discoverIn_eq disk paths.candidates []
  unfold loadOrDefault discover
  cases hf : firstFound? disk paths.candidates with
  | none =>
    rw [hf] at hd
    simp [hd]
  | some c =>
    rw [hf] at hd
    have hp : (disk c.2).isMissing = false := by
      have := List.find?_some hf
      simpa using this
    simp only at hd ⊢
    rw [hd]
    cases hr : readFile disk c.2 with
    | ok r => rfl
    | error e =>
      have hn := (readFile_error hp hr).2
      cases e with
      | notFound searched => simp [LoadError.isNotFound] at hn
      | _ => rfl

end AuditSettings
