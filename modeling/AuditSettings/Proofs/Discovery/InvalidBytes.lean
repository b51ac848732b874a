/-
AuditSettings.Proofs.Discovery.InvalidBytes — a file that is no text is
faulted where its text ends.

The bytes of a file need not be a text. Then the fault is put just past the
longest text in front of them, in the line and column that this text counts
to, and no earlier fault of that text is told (`invalidText_located`). This
is also the location of the byte after it in every text that begins with it,
so that the fault is located like any other.
-/
import AuditSettings.Proofs.Discovery.Precedence
import AuditSettings.Proofs.Text.Decoding
import AuditSettings.Proofs.Text.Offsets
import AuditSettings.Proofs.Toml.Standing

namespace AuditSettings

open AuditSettings.Text

/-- Counting line breaks and cutting at them gives the location that is carried
along the text. -/
theorem endOf_eq_after (text : List Char) : endOf text = Location.origin.after text := by
  by_cases h : '\n' ∈ text
  · obtain ⟨last, front, hreverse, hlast⟩ := List.eq_append_cons_of_mem (List.mem_reverse.2 h)
    have htext : text = front.reverse ++ '\n' :: last.reverse := by
      rw [← List.reverse_reverse text, hreverse]
      simp
    have hlast : '\n' ∉ last.reverse := mt List.mem_reverse.1 hlast
    have hline : (Location.origin.after text).line = text.count '\n' + 1 := by
      rw [Location.line_after, Nat.add_comm]
      rfl
    have hcolumn : (Location.origin.after text).column = unitCount last.reverse + 1 := by
      rw [htext, Location.after_append, Location.after_cons, Location.advance, if_pos rfl,
        Location.after_of_not_mem _ hlast]
      exact Nat.add_comm _ _
    have hpiece : (pieces '\n' text).getLast? = some last.reverse := by
      rw [htext, pieces_append, pieces_of_not_mem hlast, List.getLast?_concat]
    rw [endOf, hpiece, Option.getD_some, ← hline, ← hcolumn]
  · rw [Location.after_of_not_mem _ h, endOf, pieces_of_not_mem h, List.count_eq_zero_of_not_mem h,
      List.getLast?_singleton, Option.getD_some, Nat.add_comm (unitCount text)]
    rfl

/-- A file of bytes that are no text is faulted, by every way to read it, in
the line and the column just past the longest text in front of them, and that
is where the byte after this text stands in any text that begins with it. -/
theorem invalidText_located {disk : Disk} {paths : SearchPaths} {before after : List (Source × Path)}
    {source : Source} {p : Path} {bytes : List UInt8} (hfile : (disk p).read = .ok bytes)
    (hinvalid : ¬ ∃ cs, Utf8.encode cs = bytes)
    (hsplit : paths.candidates = before ++ (source, p) :: after)
    (hbefore : ∀ b ∈ before, Missing disk b.2) :
    ∃ v, Utf8.IsLongestText v bytes ∧
      load disk p = .error (.malformed (some p) (lineColumn v) "invalid UTF-8") ∧
      loadExplicit disk p = .error (.malformed (some p) (lineColumn v) "invalid UTF-8") ∧
      discover disk paths = .error (.malformed (some p) (lineColumn v) "invalid UTF-8") ∧
      ∀ more, Location.origin.atOffset (v ++ more) (Utf8.encode v).length = lineColumn v := by
  have hfound : ¬ Missing disk p := by
    rw [Missing, hfile]
    simp
  have hread : readFile disk p =
      .error (.malformed (some p) (lineColumn (Utf8.decode bytes).1) "invalid UTF-8") := by
    rw [readFile, hfile, ← Location.origin_after, ← endOf_eq_after]
    exact readBytes_of_invalid hinvalid p
  refine ⟨(Utf8.decode bytes).1, Utf8.isLongestText_decode bytes, ?_, ?_, ?_, ?_⟩
  · rw [load, hread]
    rfl
  · rw [loadExplicit, hread]
    rfl
  · rw [discover_eq_of_first hsplit hbefore hfound, hread]
    rfl
  · intro more
    rw [Utf8.length_encode, Location.atOffset_byteCount, Location.origin_after]

/-- The bytes of a text with faults of its own, and of a character that is
cut short. -/
def truncatedBytes : List UInt8 := Utf8.encode ['=', '\r', '\n', '\n', 'é', '😀'] ++ [0xf0, 0x9f]

/-- A disk that holds these bytes as the user's settings, and nothing else. -/
def truncatedDisk : Disk := fun p =>
  if p = "home/audit.toml" then .file truncatedBytes else .nothing

/-- The cut character is located in the third line, behind one unit for the
first character and two for the second. -/
theorem invalidText_located_when_truncated :
    (truncatedDisk "home/audit.toml").read = .ok truncatedBytes ∧
    (¬ ∃ cs, Utf8.encode cs = truncatedBytes) ∧
    Missing truncatedDisk "proj/.cargo/audit.toml" ∧
    load truncatedDisk "home/audit.toml" =
      .error (.malformed (some "home/audit.toml") ⟨3, 4⟩ "invalid UTF-8") ∧
    discover truncatedDisk ⟨"proj/.cargo/audit.toml", some "home/audit.toml"⟩ =
      .error (.malformed (some "home/audit.toml") ⟨3, 4⟩ "invalid UTF-8") := by
  have huser : truncatedDisk "home/audit.toml" = .file truncatedBytes := if_pos rfl
  have hproject : truncatedDisk "proj/.cargo/audit.toml" = .nothing := if_neg (by decide)
  have hfile : (truncatedDisk "home/audit.toml").read = .ok truncatedBytes := by
    rw [huser]
    simp only [Standing.read]
  have hmissing : Missing truncatedDisk "proj/.cargo/audit.toml" := by
    rw [Missing, hproject, Standing.read]
  have hinvalid : ¬ ∃ cs, Utf8.encode cs = truncatedBytes := by
    rw [Utf8.exists_encode_eq_iff]
    decide +kernel
  have hsplit : (SearchPaths.mk "proj/.cargo/audit.toml" (some "home/audit.toml")).candidates =
      [(.project, "proj/.cargo/audit.toml")] ++ (.user, "home/audit.toml") :: [] := rfl
  obtain ⟨v, hv, hload, -, hdiscover, -⟩ :=
    invalidText_located hfile hinvalid hsplit (by simpa using hmissing)
  have hlocation : lineColumn v = ⟨3, 4⟩ := by
    rw [hv.unique (Utf8.isLongestText_decode truncatedBytes)]
    decide +kernel
  rw [hlocation] at hload hdiscover
  exact ⟨hfile, hinvalid, hmissing, hload, hdiscover⟩

end AuditSettings
