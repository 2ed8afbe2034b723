import Descent.CommandLine
import Mathlib.Data.List.Basic

/-!
# Arguments

What arguments say is a list of parts, flags and paths. Flags are written with their names or, several
at a time, with their letters, and behind two dashes everything is a path. Reading arguments is taking
their parts one after the other, so the order of the parts matters only for the error, and not how
they are written.
-/

namespace Descent.CommandLine

/-- One thing that arguments say. -/
inductive Part where
  | flag (flag : Flag)
  | path (path : String)
deriving DecidableEq

/-- The path, if it is one. -/
def Part.path? : Part → Option String
  | .flag _ => none
  | .path given => some given

/-- The parts that arguments say, from left to right. -/
inductive Written : List Part → List String → Prop where
  | nil : Written [] []
  | name {name : String} {flag : Flag} {parts : List Part} {arguments : List String}
      (known : Flag.ofName? name = some flag) (behind : Written parts arguments) :
      Written (.flag flag :: parts) (("--" ++ name) :: arguments)
  | letters {letters : List Char} {flags : List Flag} {parts : List Part} {arguments : List String}
      (some : letters ≠ []) (known : letters.map Flag.ofLetter? = flags.map Option.some)
      (behind : Written parts arguments) :
      Written (flags.map .flag ++ parts) (String.ofList ('-' :: letters) :: arguments)
  | path {path : String} {parts : List Part} {arguments : List String}
      (plain : path = "-" ∨ path.toList.head? ≠ some '-') (behind : Written parts arguments) :
      Written (.path path :: parts) (path :: arguments)
  | paths (paths : List String) : Written (paths.map .path) ("--" :: paths)

namespace Options

/-- Takes one part into account. -/
def take (options : Options) : Part → Except Halt Options
  | .flag flag => options.setFlag flag
  | .path path => options.setPath path

theorem setLetters_eq {letters : List Char} {flags : List Flag}
    (known : letters.map Flag.ofLetter? = flags.map some) (options : Options) :
    options.setLetters letters = flags.foldlM setFlag options := by
  induction letters generalizing flags options with
  | nil =>
    obtain rfl := List.map_eq_nil_iff.mp known.symm
    rfl
  | cons letter letters ih =>
    cases flags with
    | nil => cases known
    | cons flag flags =>
      obtain ⟨first, others⟩ := List.cons.inj known
      simp only [setLetters, first, List.foldlM_cons]
      exact bind_congr fun _ => ih others _

theorem read_name {name : String} {flag : Flag} (known : Flag.ofName? name = some flag)
    (options : Options) (arguments : List String) :
    options.read (("--" ++ name) :: arguments) =
      options.setFlag flag >>= fun options => options.read arguments := by
  have spelled : ("--" ++ name).toList = '-' :: '-' :: name.toList := by simp
  have same : String.ofList name.toList = name := String.ofList_toList
  rw [read, spelled]
  cases named : name.toList with
  | nil =>
    obtain rfl := String.toList_eq_nil_iff.mp named
    cases known
  | cons c rest =>
    rw [named] at same
    simp only [same, known]

theorem read_letters {letters : List Char} {flags : List Flag} (some : letters ≠ [])
    (known : letters.map Flag.ofLetter? = flags.map Option.some) (options : Options)
    (arguments : List String) :
    options.read (String.ofList ('-' :: letters) :: arguments) =
      flags.foldlM setFlag options >>= fun options => options.read arguments := by
  rw [read, String.toList_ofList, ← setLetters_eq known]
  cases letters with
  | nil => exact absurd rfl some
  | cons letter letters =>
    have other : letter ≠ '-' := by
      rintro rfl
      cases flags <;> cases known
    simp [other]

theorem read_path {path : String} (plain : path = "-" ∨ path.toList.head? ≠ some '-')
    (options : Options) (arguments : List String) :
    options.read (path :: arguments) =
      options.setPath path >>= fun options => options.read arguments := by
  rw [read]
  rcases plain with rfl | other
  · rfl
  · cases spelled : path.toList with
    | nil => rfl
    | cons c rest =>
      have other' : c ≠ '-' := by simpa [spelled] using other
      simp [other']

end Options

/-- Reading arguments is taking their parts one after the other. -/
theorem Written.read {parts : List Part} {arguments : List String} (h : Written parts arguments)
    (options : Options) : options.read arguments = parts.foldlM Options.take options := by
  induction h generalizing options with
  | nil => rfl
  | name known _ ih =>
    rw [Options.read_name known, List.foldlM_cons]
    exact bind_congr ih
  | letters some known _ ih =>
    rw [Options.read_letters some known, List.foldlM_append, List.foldlM_map]
    exact bind_congr ih
  | path plain _ ih =>
    rw [Options.read_path plain, List.foldlM_cons]
    exact bind_congr ih
  | paths paths =>
    rw [List.foldlM_map]
    rfl

/-! ## One document -/

/-- The parts ask for one document: they have its path and no other, at most once the flag that shows
the tree, which `tree` tells, at most once the one for quiet, and else flags for logging only. -/
structure Asks (parts : List Part) (path : String) (tree : Bool) : Prop where
  named : path ≠ ""
  paths : parts.filterMap Part.path? = [path]
  flags : ∀ flag, .flag flag ∈ parts → flag ∈ [Flag.tree, .verbose, .quiet]
  tree : parts.count (.flag .tree) = tree.toNat
  quiet : parts.count (.flag .quiet) ≤ 1

/-- The options and the parts that are not yet taken into account ask for one document. -/
structure Options.Collects (options : Options) (parts : List Part) (path : String) (tree : Bool) :
    Prop where
  paths : options.path.toList ++ parts.filterMap Part.path? = [path]
  flags : ∀ flag, .flag flag ∈ parts → flag ∈ [Flag.tree, .verbose, .quiet]
  tree : options.tree.toNat + parts.count (.flag .tree) = tree.toNat
  quiet : options.quiet.toNat + parts.count (.flag .quiet) ≤ 1
  registry : options.registry = false

namespace Options.Collects

variable {options : Options} {part : Part} {parts : List Part} {path : String} {tree : Bool}

theorem take (named : path ≠ "") (h : options.Collects (part :: parts) path tree) :
    ∃ next, options.take part = .ok next ∧ next.Collects parts path tree := by
  obtain ⟨paths, flags, trees, quiets, registry⟩ := h
  have others : ∀ flag, .flag flag ∈ parts → flag ∈ [Flag.tree, .verbose, .quiet] :=
    fun flag mem => flags flag (List.mem_cons_of_mem _ mem)
  cases part with
  | path given =>
    obtain ⟨none, rfl, last⟩ : options.path = none ∧ given = path ∧
        parts.filterMap Part.path? = [] := by
      cases taken : options.path <;> simp_all [Part.path?]
    refine ⟨{ options with path := some given }, ?_, ?_⟩
    · simp [Options.take, setPath, named, none]
    · exact ⟨by simp [last], others, by simpa using trees, by simpa using quiets, registry⟩
  | flag flag =>
    have known := flags flag List.mem_cons_self
    simp only [List.mem_cons, List.not_mem_nil, or_false] at known
    rcases known with rfl | rfl | rfl
    · rw [List.count_cons_self] at trees
      have small := tree.toNat_le
      have once : options.tree = false := Bool.toNat_eq_zero.mp (by omega)
      refine ⟨{ options with tree := true }, by simp [Options.take, setFlag, setOnce, once], ?_⟩
      have trees' : 1 + parts.count (.flag .tree) = tree.toNat := by
        rw [once] at trees
        simp only [Bool.toNat_false] at trees
        omega
      exact ⟨paths, others, trees', by simpa using quiets, registry⟩
    · refine ⟨{ options with verbosity := options.verbosity + 1 }, rfl, ?_⟩
      exact ⟨paths, others, by simpa using trees, by simpa using quiets, registry⟩
    · rw [List.count_cons_self] at quiets
      have once : options.quiet = false := Bool.toNat_eq_zero.mp (by omega)
      refine ⟨{ options with quiet := true }, by simp [Options.take, setFlag, setOnce, once], ?_⟩
      have quiets' : 1 + parts.count (.flag .quiet) ≤ 1 := by omega
      exact ⟨paths, others, by simpa using trees, quiets', registry⟩

theorem takeAll (named : path ≠ "") (h : options.Collects parts path tree) :
    ∃ result, parts.foldlM Options.take options = .ok result ∧ result.Collects [] path tree := by
  induction parts generalizing options with
  | nil => exact ⟨options, rfl, h⟩
  | cons part parts ih =>
    obtain ⟨next, taken, collects⟩ := h.take named
    rw [List.foldlM_cons, taken]
    exact ih collects

end Options.Collects

/-- Arguments that ask for one document are read as such. -/
theorem plan_of_asks {parts : List Part} {path : String} {tree : Bool} {arguments : List String}
    (asks : Asks parts path tree) (written : Written parts arguments) :
    ∃ options, plan arguments = .parse options path ∧ options.tree = tree := by
  have start : ({} : Options).Collects parts path tree :=
    ⟨asks.paths, asks.flags, by simpa using asks.tree, by simpa using asks.quiet, rfl⟩
  obtain ⟨options, taken, paths, -, trees, -, registry⟩ := start.takeAll asks.named
  have given : options.path = some path := by
    cases found : options.path <;> simp_all
  have same : options.tree = tree := by
    cases shown : options.tree <;> cases tree <;> simp_all
  refine ⟨options, ?_, same⟩
  simp only [plan, written.read, taken, registry, given, Bool.false_eq_true, if_false]

end Descent.CommandLine
