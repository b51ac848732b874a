/-
AuditSettings.Proofs.Command.Given — the options that arguments give.

An option can be spelled in several ways, and options may come in any
order. `Gives` says which options a list of arguments gives, with their
values, whatever the spelling. A command is only asked for by arguments that
give options (`Options.exists_gives_of_read`), it is made of these options
(`Options.read_of_gives`), and the values that reach it are those that were
given and no others (`Options.text?_of_giveAll`).
-/
import AuditSettings.Command.Arguments

namespace AuditSettings

open AuditSettings.Policy AuditSettings.Text

/-- Arguments that give some options, each with its value, and that ask for
nothing else. -/
inductive Gives (allowed : List Flag) : List String → List (Flag × String) → Prop
  | nil : Gives allowed [] []
  | hyphens : Gives allowed ["--"] []
  /-- An option in one argument with its value. -/
  | joined {arg : String} {rest : List String} {f : Flag} {value : String}
      {given : List (Flag × String)} :
      arg ≠ "--" → Argument.read allowed arg.toList = .complete f value →
      Gives allowed rest given → Gives allowed (arg :: rest) ((f, value) :: given)
  /-- An option whose value is the next argument. -/
  | apart {arg value : String} {rest : List String} {f : Flag} {given : List (Flag × String)} :
      arg ≠ "--" → Argument.read allowed arg.toList = .awaiting f →
      Options.isOption value = false → Gives allowed rest given →
      Gives allowed (arg :: value :: rest) ((f, value) :: given)

/-! ## Where more options are allowed -/

/-- An argument that means something means the same where more options are
allowed. -/
theorem Argument.read_append {allowed more : List Flag} {arg : List Char}
    (h : Argument.read allowed arg ≠ .unknown) :
    Argument.read (allowed ++ more) arg = Argument.read allowed arg := by
  -- An option that was found among the first is found among all of them.
  have hfound (p : Flag → Bool) (hp : allowed.find? p ≠ none) :
      (allowed ++ more).find? p = allowed.find? p := by
    obtain ⟨f, hf⟩ := Option.ne_none_iff_exists'.1 hp
    rw [List.find?_append, hf, Option.some_or]
  unfold Argument.read at h ⊢
  split
  · next rest =>
    cases hs : splitOnce '=' rest with
    | none => simp only [hs] at h ⊢; grind
    | some named => simp only [hs] at h ⊢; grind
  · grind
  · rfl

/-- Options that are given are given too where more of them are allowed. -/
theorem Gives.append {allowed : List Flag} {args : List String} {given : List (Flag × String)}
    (h : Gives allowed args given) (more : List Flag) : Gives (allowed ++ more) args given := by
  induction h with
  | nil => exact .nil
  | hyphens => exact .hyphens
  | joined hne hread _ ih => exact .joined hne (by rw [Argument.read_append, hread]; simp [hread]) ih
  | apart hne hread hvalue _ ih =>
    exact .apart hne (by rw [Argument.read_append, hread]; simp [hread]) hvalue ih

namespace Options

/-! ## The values of the options -/

/-- The value of an option, as it was given. -/
def text? (o : Options) : Flag → Option String
  | .file => o.file
  | .project => o.project
  | .format => o.format.map Keyword.word

/-- All values of some options, one after the other. -/
def giveAll (o : Options) (given : List (Flag × String)) : Option Options :=
  given.foldlM (fun o g => o.give g.1 g.2) o

@[simp] theorem giveAll_nil (o : Options) : o.giveAll [] = some o := rfl

@[simp] theorem giveAll_cons (o : Options) (f : Flag) (value : String)
    (given : List (Flag × String)) :
    o.giveAll ((f, value) :: given) = (o.give f value).bind (giveAll · given) := rfl

theorem once_eq_some_iff {old : Option String} {value v : String} :
    once old value = some v ↔ old = Option.none ∧ value ≠ "" ∧ v = value := by
  cases old with
  | none =>
    rw [once]
    by_cases hv : value = ""
    · simp [hv]
    · simp [hv, eq_comm (a := v)]
  | some _ => simp [once]

/-- Giving an option sets its value, which it did not have, and no other. -/
theorem text?_of_give {o o' : Options} {f : Flag} {value : String}
    (h : o.give f value = some o') :
    o.text? f = Option.none ∧ o'.text? f = some value ∧ ∀ g, g ≠ f → o'.text? g = o.text? g := by
  cases f with
  | file =>
    obtain ⟨v, hv, rfl⟩ := Option.map_eq_some_iff.1 h
    obtain ⟨hold, -, rfl⟩ := once_eq_some_iff.1 hv
    exact ⟨hold, rfl, fun g hg => by cases g <;> first | rfl | exact absurd rfl hg⟩
  | project =>
    obtain ⟨v, hv, rfl⟩ := Option.map_eq_some_iff.1 h
    obtain ⟨hold, -, rfl⟩ := once_eq_some_iff.1 hv
    exact ⟨hold, rfl, fun g hg => by cases g <;> first | rfl | exact absurd rfl hg⟩
  | format =>
    rw [give] at h
    split at h
    · cases h
    · next hold =>
      obtain ⟨v, hv, rfl⟩ := Option.map_eq_some_iff.1 h
      refine ⟨?_, ?_, fun g hg => by cases g <;> first | rfl | exact absurd rfl hg⟩
      · simpa [text?] using hold
      · exact congrArg some (Keyword.ofWord?_eq_some_iff.1 hv)

/-- The values after some options are those from before and those that were
given. -/
theorem text?_of_giveAll {o o' : Options} {given : List (Flag × String)}
    (h : o.giveAll given = some o') (f : Flag) (value : String) :
    o'.text? f = some value ↔ o.text? f = some value ∨ (f, value) ∈ given := by
  induction given generalizing o with
  | nil =>
    cases h
    simp
  | cons g given ih =>
    obtain ⟨first, v⟩ := g
    rw [giveAll_cons] at h
    obtain ⟨between, hgive, hrest⟩ := Option.bind_eq_some_iff.1 h
    obtain ⟨hold, hnew, hothers⟩ := text?_of_give hgive
    rw [ih hrest, List.mem_cons, Prod.mk.injEq]
    by_cases hf : f = first
    · subst hf
      simp [hold, hnew, eq_comm]
    · simp [hothers f hf, hf]

/-! ## From arguments to a command -/

variable {allowed : List Flag} {finish : Options → Option Command} {o : Options}

theorem read_hyphens : read allowed finish o ["--"] = (finish o).map .command := by
  rw [read.eq_def]
  rfl

theorem read_joined {arg : String} {rest : List String} {f : Flag} {value : String}
    (hne : arg ≠ "--") (hread : Argument.read allowed arg.toList = .complete f value) :
    read allowed finish o (arg :: rest) = (o.give f value).bind (read allowed finish · rest) := by
  rw [read.eq_def]
  simp only [if_neg hne, hread]

theorem read_apart {arg value : String} {rest : List String} {f : Flag} (hne : arg ≠ "--")
    (hread : Argument.read allowed arg.toList = .awaiting f) (hvalue : isOption value = false) :
    read allowed finish o (arg :: value :: rest) =
      (o.give f value).bind (read allowed finish · rest) := by
  rw [read.eq_def]
  simp only [if_neg hne, hread, hvalue, Bool.false_eq_true, if_false]

/-- Arguments that give options ask for the command that is made of
these. -/
theorem read_of_gives {args : List String} {given : List (Flag × String)}
    (h : Gives allowed args given) :
    read allowed finish o args = ((o.giveAll given).bind finish).map .command := by
  induction h generalizing o with
  | nil => rw [read, giveAll_nil, Option.bind_some]
  | hyphens => rw [read_hyphens, giveAll_nil, Option.bind_some]
  | joined hne hread _ ih =>
    rw [read_joined hne hread, giveAll_cons]
    simp only [ih]
    cases o.give _ _ <;> rfl
  | apart hne hread hvalue _ ih =>
    rw [read_apart hne hread hvalue, giveAll_cons]
    simp only [ih]
    cases o.give _ _ <;> rfl

/-- Arguments that ask for a command give options. -/
theorem exists_gives_of_read {args : List String} {c : Command}
    (h : read allowed finish o args = some (.command c)) : ∃ given, Gives allowed args given := by
  fun_induction read allowed finish o args with
  | case1 o => exact ⟨[], .nil⟩
  | case2 o rest hrest =>
    obtain rfl := List.isEmpty_iff.1 hrest
    exact ⟨[], .hyphens⟩
  | case5 o arg hne f value rest hread ih =>
    obtain ⟨o', -, hrest⟩ := Option.bind_eq_some_iff.1 h
    obtain ⟨given, hgives⟩ := ih o' hrest
    exact ⟨_, .joined hne hread hgives⟩
  | case7 o arg hne f value rest hread hvalue ih =>
    obtain ⟨o', -, hrest⟩ := Option.bind_eq_some_iff.1 h
    obtain ⟨given, hgives⟩ := ih o' hrest
    exact ⟨_, .apart hne hread (Bool.eq_false_iff.2 hvalue) hgives⟩
  | case3 | case4 | case6 | case8 | case9 => cases h

/-- The command that is asked for is made of the options that the arguments
give. -/
theorem exists_of_read_of_gives {args : List String} {given : List (Flag × String)} {c : Command}
    (hgives : Gives allowed args given) (h : read allowed finish o args = some (.command c)) :
    ∃ o', o.giveAll given = some o' ∧ finish o' = some c := by
  rw [read_of_gives hgives] at h
  obtain ⟨c', hfinish, hc⟩ := Option.map_eq_some_iff.1 h
  cases hc
  exact Option.bind_eq_some_iff.1 hfinish

end Options

end AuditSettings
