/-
AuditSettings.Proofs.Discovery.Places — when the list of places tells what
a search does.

The list of places asks of every path whether a regular file is there; a
search reads the path and passes over it only when nothing is there. The
two questions have the same answer except where something stands in the
way: a directory, a path that leads through a file or cannot be followed,
or something unreadable that is no regular file. `isObstructed` names
these standings, and `agrees_iff_not_isObstructed` says that the list and the
search agree exactly when no place of the search is obstructed.

`Agrees` speaks of the printed text. It is a line for each place, with the
source and the path of the place, and the notes behind them: which of the
lines are starred, which say that the file is missing, and whether the text
ends with the note that defaults apply.
-/
import AuditSettings.Proofs.Discovery.FirstFound
import AuditSettings.Proofs.Outcome
import AuditSettings.Report.Terminal

namespace AuditSettings

namespace Standing

/-- Something stands there that is no regular file. -/
def isObstructed : Standing → Bool
  | nothing | file _ => false
  | barred isFile _ => !isFile
  | directory | belowFile | nameTooLong | nulInPath => true

theorem isFile_eq_not_isMissing {s : Standing} (h : s.isObstructed = false) :
    s.isFile = !s.isMissing := by
  cases s <;> simp_all [isObstructed, isFile, isMissing]

theorem isFile_ne_not_isMissing {s : Standing} (h : s.isObstructed = true) :
    s.isFile = false ∧ s.isMissing = false := by
  cases s <;> simp_all [isObstructed, isFile, isMissing]

end Standing

namespace Report

/-! ## What the printed lines say -/

/-- The line of a place bears the star. -/
def Starred (line : String) : Prop := ['*'] <+: line.toList

/-- The line of a place says that no file is there. -/
def SaysMissing (line : String) : Prop :=
  ['(', 'm', 'i', 's', 's', 'i', 'n', 'g', ')'] <:+ line.toList

/-- The text ends with the note that no file was found. -/
def SaysDefaults (text : String) : Prop :=
  "no configuration file found, defaults apply\n".toList <:+ text.toList

theorem starred_placeLine_iff (starred found : Bool) (source : Source) (p : Path) :
    Starred (placeLine starred found source p) ↔ starred = true := by
  cases starred <;> simp [Starred, placeLine, String.toList_append]

/-- Two endings of one text with the same length are the same. -/
theorem eq_of_suffix_of_length {α : Type} {a b l : List α} (ha : a <:+ l) (hb : b <:+ l)
    (h : a.length = b.length) : a = b :=
  (List.suffix_of_suffix_length_le ha hb (by omega)).eq_of_length h

theorem saysMissing_placeLine_iff (starred found : Bool) (source : Source) (p : Path) :
    SaysMissing (placeLine starred found source p) ↔ found = false := by
  cases found with
  | false =>
    simp only [SaysMissing, iff_true]
    refine ⟨((if starred then "*" else " ") ++ " " ++ padded 7 source.word ++ " " ++ p ++ " ").toList,
      ?_⟩
    simp [placeLine, String.toList_append]
  | true =>
    simp only [SaysMissing, Bool.true_eq_false, iff_false]
    intro hm
    have hf : ['(', 'f', 'o', 'u', 'n', 'd', ')'] <:+ (placeLine starred true source p).toList :=
      ⟨((if starred then "*" else " ") ++ " " ++ padded 7 source.word ++ " " ++ p ++ " ").toList,
        by simp [placeLine, String.toList_append]⟩
    have hm' := (List.drop_suffix 2 _).trans hm
    exact absurd (eq_of_suffix_of_length hf hm' rfl) (by decide)

/-! ## The lines of the places -/

/-- Each line answers for its own place: it is starred when a file is there
and at no place before, and it says whether a file is there. -/
theorem mem_zip_placeLines (disk : Disk) : ∀ (cs : List (Source × Path)) (decided : Bool)
    (c : Source × Path) (line : String), (c, line) ∈ cs.zip (placeLines disk decided cs) →
    ∃ before after, cs = before ++ c :: after ∧
      line = placeLine ((disk c.2).isFile && !(decided || before.any fun b => (disk b.2).isFile))
        (disk c.2).isFile c.1 c.2
  | [], decided, c, line, h => by simp at h
  | (source, p) :: cs, decided, c, line, h => by
      simp only [placeLines, List.zip_cons_cons, List.mem_cons, Prod.mk.injEq] at h
      rcases h with ⟨rfl, rfl⟩ | h
      · exact ⟨[], cs, rfl, by simp⟩
      · obtain ⟨before, after, hcs, hline⟩ := mem_zip_placeLines disk cs _ c line h
        refine ⟨(source, p) :: before, after, by rw [hcs]; rfl, ?_⟩
        rw [hline]
        simp only [List.any_cons, Bool.or_assoc]

theorem length_placeLines (disk : Disk) : ∀ (cs : List (Source × Path)) (decided : Bool),
    (placeLines disk decided cs).length = cs.length
  | [], _ => rfl
  | (_, _) :: cs, decided => by simp [placeLines, length_placeLines disk cs]

/-- Every place has its line. -/
theorem exists_line (disk : Disk) (decided : Bool) {cs : List (Source × Path)}
    {c : Source × Path} (h : c ∈ cs) : ∃ line, (c, line) ∈ cs.zip (placeLines disk decided cs) := by
  obtain ⟨i, hi, hc⟩ := List.getElem_of_mem h
  have hi' : i < (placeLines disk decided cs).length := by rw [length_placeLines]; exact hi
  refine ⟨(placeLines disk decided cs)[i], ?_⟩
  rw [List.mem_iff_getElem]
  exact ⟨i, by rw [List.length_zip]; omega, by simp [hc]⟩

/-- The places with their printed lines. -/
def placesWithLines (disk : Disk) (paths : SearchPaths) : List ((Source × Path) × String) :=
  paths.candidates.zip (placeLines disk false paths.candidates)

theorem map_fst_placesWithLines (disk : Disk) (paths : SearchPaths) :
    (placesWithLines disk paths).map Prod.fst = paths.candidates :=
  List.map_fst_zip (Nat.le_of_eq (length_placeLines disk _ _).symm)

theorem map_snd_placesWithLines (disk : Disk) (paths : SearchPaths) :
    (placesWithLines disk paths).map Prod.snd = placeLines disk false paths.candidates :=
  List.map_snd_zip (Nat.le_of_eq (length_placeLines disk _ _))

/-- A line has its mark, the source in eight columns, the path and the
state. -/
theorem placeLine_eq (starred found : Bool) {source : Source}
    (h : source = .project ∨ source = .user) (p : Path) :
    placeLine starred found source p = (if starred then "*" else " ") ++
      (if source = .project then " project " else " user    ") ++ p ++
        " (" ++ (if found then "found" else "missing") ++ ")" := by
  have hword : " " ++ padded 7 source.word ++ " " =
      if source = .project then " project " else " user    " := by
    rcases h with rfl | rfl <;> decide
  rw [placeLine, ← hword]
  simp only [String.append_assoc]

theorem source_eq_or {paths : SearchPaths} {c : Source × Path} (h : c ∈ paths.candidates) :
    c.1 = .project ∨ c.1 = .user := by
  simp only [SearchPaths.candidates, List.mem_cons, Option.mem_toList, Option.map_eq_some_iff] at h
  rcases h with rfl | ⟨p, -, rfl⟩
  · exact .inl rfl
  · exact .inr rfl

/-- The line of a place names its source and its path. -/
theorem exists_line_eq {disk : Disk} {paths : SearchPaths} {x : (Source × Path) × String}
    (h : x ∈ placesWithLines disk paths) : ∃ mark state, (mark = "*" ∨ mark = " ") ∧
      (state = "found" ∨ state = "missing") ∧ x.2 = mark ++
        (if x.1.1 = .project then " project " else " user    ") ++ x.1.2 ++ " (" ++ state ++ ")" := by
  obtain ⟨before, after, hcs, hline⟩ := mem_zip_placeLines disk _ _ x.1 x.2 h
  have hsource : x.1.1 = .project ∨ x.1.1 = .user := source_eq_or (by rw [hcs]; simp)
  rw [placeLine_eq _ _ hsource] at hline
  refine ⟨_, _, ?_, ?_, hline⟩
  · split <;> simp
  · split <;> simp

/-- The printed text is the lines of the places and the notes behind them. -/
theorem places_eq (disk : Disk) (paths : SearchPaths) : ∃ note,
    (note = "" ∨ note = "no configuration file found, defaults apply\n") ∧
    places disk paths = String.join ((placesWithLines disk paths).map fun x => x.2 ++ "\n") ++
      (if paths.user = none then "  user    (no home directory)\n" else "") ++ note := by
  have hlines : String.join ((placesWithLines disk paths).map fun x => x.2 ++ "\n") =
      unlines (placeLines disk false paths.candidates) := by
    rw [unlines, ← map_snd_placesWithLines, List.map_map]
    rfl
  have huser : unlines (if paths.user.isNone then ["  user    (no home directory)"] else []) =
      if paths.user = none then "  user    (no home directory)\n" else "" := by
    cases paths.user <;> rfl
  rw [places, List.append_assoc, unlines_append, unlines_append, hlines, huser, ← String.append_assoc]
  refine ⟨_, ?_, rfl⟩
  split
  · exact .inl rfl
  · exact .inr rfl

/-! ## The end of the text -/

theorem toList_unlines_concat (lines : List String) (line : String) :
    (unlines (lines ++ [line])).toList = (unlines lines).toList ++ line.toList ++ ['\n'] := by
  simp [toList_unlines]

theorem bracket_suffix_of_mem_placeLines (disk : Disk) {line : String} :
    ∀ (cs : List (Source × Path)) (decided : Bool), line ∈ placeLines disk decided cs →
      [')'] <:+ line.toList
  | [], _, h => by simp [placeLines] at h
  | (source, p) :: cs, decided, h => by
      simp only [placeLines, List.mem_cons] at h
      rcases h with rfl | h
      · exact ⟨_, by simp only [placeLine, String.toList_append]; rfl⟩
      · exact bracket_suffix_of_mem_placeLines disk cs _ h

/-- Lines that all end with a bracket do not end with the note. -/
theorem not_saysDefaults_unlines {lines : List String} (hne : lines ≠ [])
    (h : ∀ line ∈ lines, [')'] <:+ line.toList) : ¬ SaysDefaults (unlines lines) := by
  intro hd
  rw [← List.dropLast_concat_getLast hne] at hd
  obtain ⟨before, hl⟩ := h _ (List.getLast_mem hne)
  have hb : [')', '\n'] <:+ (unlines (lines.dropLast ++ [lines.getLast hne])).toList :=
    ⟨(unlines lines.dropLast).toList ++ before, by rw [toList_unlines_concat, ← hl]; simp⟩
  have hn := (List.drop_suffix 42 "no configuration file found, defaults apply\n".toList).trans hd
  exact absurd (eq_of_suffix_of_length hb hn (by decide)) (by decide)

/-- The note is printed exactly when there is a regular file at no place. -/
theorem saysDefaults_places_iff (disk : Disk) (paths : SearchPaths) :
    SaysDefaults (places disk paths) ↔ ∀ c ∈ paths.candidates, (disk c.2).isFile = false := by
  have hany : (paths.candidates.any fun c => (disk c.2).isFile) = false ↔
      ∀ c ∈ paths.candidates, (disk c.2).isFile = false := by
    simp only [List.any_eq_false, Bool.not_eq_true]
  rw [← hany]
  cases hf : paths.candidates.any fun c => (disk c.2).isFile with
  | false =>
    simp only [iff_true]
    refine ⟨(unlines (placeLines disk false paths.candidates ++
      if paths.user.isNone then ["  user    (no home directory)"] else [])).toList, ?_⟩
    simp only [places, hf, Bool.false_eq_true, if_false]
    rw [toList_unlines_concat, List.append_assoc]
    rfl
  | true =>
    simp only [Bool.true_eq_false, iff_false]
    rw [places, hf, if_pos rfl, List.append_nil]
    refine not_saysDefaults_unlines ?_ fun line hline => ?_
    · simp [SearchPaths.candidates, placeLines]
    · rcases List.mem_append.mp hline with h | h
      · exact bracket_suffix_of_mem_placeLines disk _ _ h
      · split at h
        · simp only [List.mem_singleton] at h
          subst h
          exact ⟨"  user    (no home directory".toList, by decide⟩
        · simp at h

/-! ## The list and the search -/

/-- The outcome of a search is that of a place: settings from there, or a
failure about the file there. -/
def Uses (r : Except LoadError Loaded) (c : Source × Path) : Prop :=
  (∃ l, r = .ok l ∧ l.source = c.1 ∧ l.path = some c.2) ∨
    ∃ e, r = .error e ∧ e.file? = some c.2

/-- The outcome of a search is the standard settings. -/
def UsesDefaults (r : Except LoadError Loaded) : Prop := ∃ l, r = .ok l ∧ l.source = .defaults

/-- The search passes over a path. -/
def PassesOver (disk : Disk) (p : Path) : Prop :=
  ∃ e, readFile disk p = .error e ∧ e.isNotFound = true

/-- The list of places tells what the search does. -/
structure Agrees (disk : Disk) (paths : SearchPaths) : Prop where
  /-- Every place has its line. -/
  all_listed : (placesWithLines disk paths).map Prod.fst = paths.candidates
  /-- The line of a place names its source and its path. -/
  names : ∀ x ∈ placesWithLines disk paths, ∃ mark state, (mark = "*" ∨ mark = " ") ∧
    (state = "found" ∨ state = "missing") ∧ x.2 = mark ++
      (if x.1.1 = .project then " project " else " user    ") ++ x.1.2 ++ " (" ++ state ++ ")"
  /-- The lines are printed, and behind them a note where no home directory is
  known and the note on defaults, if there is one. -/
  printed : ∃ note, (note = "" ∨ note = "no configuration file found, defaults apply\n") ∧
    places disk paths = String.join ((placesWithLines disk paths).map fun x => x.2 ++ "\n") ++
      (if paths.user = none then "  user    (no home directory)\n" else "") ++ note
  /-- A starred place is the one in effect. -/
  star_uses : ∀ x ∈ placesWithLines disk paths, Starred x.2 → Uses (loadOrDefault disk paths) x.1
  /-- There is a star unless the standard settings are in effect. -/
  star_iff : (∃ x ∈ placesWithLines disk paths, Starred x.2) ↔
    ¬ UsesDefaults (loadOrDefault disk paths)
  /-- There is no second star. -/
  star_once : (placesWithLines disk paths).Pairwise fun x y => ¬ (Starred x.2 ∧ Starred y.2)
  /-- A place is called missing when the search passes over it. -/
  missing_iff : ∀ x ∈ placesWithLines disk paths, SaysMissing x.2 ↔ PassesOver disk x.1.2
  /-- The note on defaults is printed when they are in effect. -/
  defaults_iff : SaysDefaults (places disk paths) ↔ UsesDefaults (loadOrDefault disk paths)

/-! ## Agreement -/

theorem passesOver_iff {disk : Disk} {p : Path} : PassesOver disk p ↔ (disk p).isMissing = true :=
  readFile_isNotFound_iff

/-- Without a place to take, the standard settings are in effect, and only
then. -/
theorem usesDefaults_iff {disk : Disk} {paths : SearchPaths} :
    UsesDefaults (loadOrDefault disk paths) ↔ firstFound? disk paths.candidates = none := by
  have hd := loadOrDefault_eq disk paths
  cases hf : firstFound? disk paths.candidates with
  | none =>
    rw [hf] at hd
    simp only [iff_true]
    exact ⟨.standard, hd, rfl⟩
  | some c =>
    rw [hf] at hd
    simp only [reduceCtorEq, iff_false]
    rintro ⟨l, hl, hsource⟩
    rw [hd] at hl
    have hc : c.1 = .defaults := by
      obtain ⟨r, -, rfl⟩ := exists_of_map_eq_ok hl
      exact hsource
    rcases source_eq_or (List.mem_of_find?_eq_some hf) with h | h <;> simp [h] at hc

theorem firstFound?_eq_none_iff {disk : Disk} {cs : List (Source × Path)} :
    firstFound? disk cs = none ↔ ∀ c ∈ cs, (disk c.2).isMissing = true := by
  simp [firstFound?, List.find?_eq_none]

/-- The place that a search takes gives its outcome. -/
theorem uses_of_firstFound? {disk : Disk} {paths : SearchPaths} {c : Source × Path}
    (h : firstFound? disk paths.candidates = some c) : Uses (loadOrDefault disk paths) c := by
  have hd := loadOrDefault_eq disk paths
  rw [h] at hd
  simp only at hd
  have hp : (disk c.2).isMissing = false := by simpa using List.find?_some h
  cases hr : readFile disk c.2 with
  | ok r =>
    refine Or.inl ⟨.ofReading c.1 c.2 r, ?_, rfl, rfl⟩
    rw [hd, hr]
    rfl
  | error e =>
    refine Or.inr ⟨e, ?_, (readFile_error hp hr).1⟩
    rw [hd, hr]
    rfl

/-- A starred place is the first at which there is a file. -/
theorem exists_split_of_starred {disk : Disk} {paths : SearchPaths} {x : (Source × Path) × String}
    (h : x ∈ placesWithLines disk paths) (hs : Starred x.2) :
    ∃ before after, paths.candidates = before ++ x.1 :: after ∧ (disk x.1.2).isFile = true ∧
      ∀ b ∈ before, (disk b.2).isFile = false := by
  obtain ⟨before, after, hcs, hline⟩ := mem_zip_placeLines disk _ _ x.1 x.2 h
  rw [hline, starred_placeLine_iff] at hs
  simp only [Bool.false_or, Bool.and_eq_true, Bool.not_eq_true', List.any_eq_false,
    Bool.not_eq_true] at hs
  exact ⟨before, after, hcs, hs.1, hs.2⟩

theorem exists_starred (disk : Disk) : ∀ (cs : List (Source × Path)),
    (∃ c ∈ cs, (disk c.2).isFile = true) → ∃ x ∈ cs.zip (placeLines disk false cs), Starred x.2
  | [], ⟨c, hc, _⟩ => by simp at hc
  | (source, p) :: cs, ⟨c, hc, hf⟩ => by
      cases hp : (disk p).isFile with
      | true =>
        refine ⟨((source, p), placeLine true true source p), ?_, ?_⟩
        · simp [placeLines, hp]
        · rw [starred_placeLine_iff]
      | false =>
        have hc' : c ∈ cs := by
          rcases List.mem_cons.mp hc with rfl | hc
          · simp [hp] at hf
          · exact hc
        obtain ⟨x, hx, hstar⟩ := exists_starred disk cs ⟨c, hc', hf⟩
        refine ⟨x, ?_, hstar⟩
        simp only [placeLines, hp, Bool.or_false, List.zip_cons_cons]
        exact List.mem_cons_of_mem _ hx

theorem not_starred_of_decided {disk : Disk} {cs : List (Source × Path)}
    {x : (Source × Path) × String} (h : x ∈ cs.zip (placeLines disk true cs)) : ¬ Starred x.2 := by
  obtain ⟨before, after, -, hline⟩ := mem_zip_placeLines disk _ _ x.1 x.2 h
  rw [hline, starred_placeLine_iff]
  simp

/-- At most one of the lines is starred. -/
theorem pairwise_not_starred (disk : Disk) : ∀ (cs : List (Source × Path)) (decided : Bool),
    (cs.zip (placeLines disk decided cs)).Pairwise fun x y => ¬ (Starred x.2 ∧ Starred y.2)
  | [], _ => by simp
  | (source, p) :: cs, decided => by
      simp only [placeLines, List.zip_cons_cons, List.pairwise_cons]
      refine ⟨fun y hy hxy => ?_, pairwise_not_starred disk cs _⟩
      have hstar := (starred_placeLine_iff _ _ _ _).mp hxy.1
      simp only [Bool.and_eq_true] at hstar
      rw [hstar.1, Bool.or_true] at hy
      exact not_starred_of_decided hy hxy.2

/-- Where the list and the search agree, nothing but regular files stands
at the places. -/
theorem not_isObstructed_of_agrees {disk : Disk} {paths : SearchPaths} (h : Agrees disk paths)
    {c : Source × Path} (hc : c ∈ paths.candidates) : (disk c.2).isObstructed = false := by
  obtain ⟨line, hline⟩ := exists_line disk false hc
  have hm := h.missing_iff _ hline
  obtain ⟨before, after, -, hl⟩ := mem_zip_placeLines disk _ _ c line hline
  rw [hl, saysMissing_placeLine_iff, passesOver_iff] at hm
  cases ho : (disk c.2).isObstructed with
  | false => rfl
  | true =>
    obtain ⟨hf, hn⟩ := Standing.isFile_ne_not_isMissing ho
    rw [hm.mp hf] at hn
    exact absurd hn (by decide)

/-- Where a path holds a regular file or nothing, the star falls on the
place that the search takes. -/
theorem firstFound?_of_starred {disk : Disk} {paths : SearchPaths}
    (hfile : ∀ c ∈ paths.candidates, (disk c.2).isFile = !(disk c.2).isMissing)
    {x : (Source × Path) × String} (hx : x ∈ placesWithLines disk paths) (hs : Starred x.2) :
    firstFound? disk paths.candidates = some x.1 := by
  obtain ⟨before, after, hcs, hf, hb⟩ := exists_split_of_starred hx hs
  have hbefore : ∀ b ∈ before, (disk b.2).isMissing = true := by
    intro b hbm
    have hcand : b ∈ paths.candidates := by rw [hcs]; simp [hbm]
    have := hfile b hcand
    rw [hb b hbm] at this
    simpa using this.symm
  have hx1 : x.1 ∈ paths.candidates := by rw [hcs]; simp
  have hxm := hfile x.1 hx1
  rw [hf] at hxm
  rw [firstFound?, hcs, List.find?_append, List.find?_eq_none.mpr (by simpa using hbefore)]
  simp [← hxm]

/-- The list of places tells what the search does exactly when nothing but
a regular file stands at any of the places. -/
theorem agrees_iff_not_isObstructed (disk : Disk) (paths : SearchPaths) :
    Agrees disk paths ↔ ∀ c ∈ paths.candidates, (disk c.2).isObstructed = false := by
  constructor
  · intro h c hc
    exact not_isObstructed_of_agrees h hc
  · intro h
    have hfile : ∀ c ∈ paths.candidates, (disk c.2).isFile = !(disk c.2).isMissing :=
      fun c hc => Standing.isFile_eq_not_isMissing (h c hc)
    have hnone : firstFound? disk paths.candidates = none ↔
        ∀ c ∈ paths.candidates, (disk c.2).isFile = false := by
      rw [firstFound?_eq_none_iff]
      refine forall₂_congr fun c hc => ?_
      rw [hfile c hc, Bool.not_eq_false']
    refine ⟨map_fst_placesWithLines disk paths, fun x hx => exists_line_eq hx,
      places_eq disk paths, fun x hx hs => ?_, ?_, pairwise_not_starred disk _ _, fun x hx => ?_, ?_⟩
    · exact uses_of_firstFound? (firstFound?_of_starred hfile hx hs)
    · rw [usesDefaults_iff]
      constructor
      · rintro ⟨x, hx, hs⟩ hall
        rw [firstFound?_of_starred hfile hx hs] at hall
        exact absurd hall (by simp)
      · intro hall
        apply exists_starred
        rw [hnone] at hall
        simpa using hall
    · obtain ⟨before, after, hcs, hline⟩ := mem_zip_placeLines disk _ _ x.1 x.2 hx
      have hx1 : x.1 ∈ paths.candidates := by rw [hcs]; simp
      rw [hline, saysMissing_placeLine_iff, passesOver_iff, hfile _ hx1, Bool.not_eq_false']
    · rw [saysDefaults_places_iff, usesDefaults_iff, hnone]

/-- With a directory at the project's place the search fails, while the
list calls that place missing and stars the user's file. -/
theorem not_agrees_of_directory :
    ¬ Agrees (fun p => if p = "proj/.cargo/audit.toml" then .directory else .file [])
      ⟨"proj/.cargo/audit.toml", some "home/audit.toml"⟩ := by
  intro h
  exact absurd (not_isObstructed_of_agrees h (c := (.project, "proj/.cargo/audit.toml"))
    (by simp [SearchPaths.candidates])) (by simp [Standing.isObstructed])

end Report
end AuditSettings
