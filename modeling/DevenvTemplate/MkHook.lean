import DevenvTemplate.NixLib
import DevenvTemplate.ShellText

/-!
# The git-hook wrapper

`mkHook` of `_hooks.nix` writes a script that puts the `bin` directories of some
packages and some further directories in front of `PATH` and then runs a command.
The script is read here as a shell reads it, and its `PATH` as the command search
does.  The two separators of the script are always there, so a list that is empty
leaves an empty component, and with it the current directory, in the search.
-/

namespace DevenvTemplate.Hooks

open Nix ShellText

/-! ### The script -/

/-- A package, by the store path of the output that has its programs. -/
structure Package where
  outPath : String
  plain : outPath.toList.all isPlain = true

def Package.bin (p : Package) : SearchDir where
  text := p.outPath ++ "/bin"
  ne_empty := by
    intro h
    have htext := congrArg String.toList h
    simp at htext
  plain := by
    have hbin : "/bin".toList.all isPlain = true := by decide
    rw [String.toList_append, List.all_append, p.plain, hbin]
    rfl

/-- `lib.makeBinPath`. -/
def makeBinPath (bins : List Package) : String :=
  concatStringsSep ":" (bins.map fun p => p.outPath ++ "/bin")

/-- What the wrapper uses of `pkgs`. -/
structure Pkgs where
  runtimeShell : String
  one_line : '\n' ∉ runtimeShell.toList

structure ShellScript where
  name : String
  text : String
deriving DecidableEq, Repr

/-- `pkgs.writeShellScript`. -/
def writeShellScript (pkgs : Pkgs) (name text : String) : ShellScript where
  name := name
  text := "#!" ++ pkgs.runtimeShell ++ "\n" ++ text ++ "\n"

/-- `builtins.baseNameOf`: what follows the last slash, a slash at the end aside. -/
def baseNameOf (path : String) : String :=
  let text := path.toList
  let text := if 1 < text.length ∧ text.getLast? = some '/' then text.dropLast else text
  String.ofList (text.reverse.takeWhile (· != '/')).reverse

example : baseNameOf "/nix/store/x-treefmt/bin/treefmt" = "treefmt" := by decide

structure HookArgs where
  command : String
  bins : List Package := []
  paths : List SearchDir := []
  args : String := ""

def mkHook (pkgs : Pkgs) (hook : HookArgs) : ShellScript :=
  writeShellScript pkgs ("hook-" ++ baseNameOf hook.command)
    ("export PATH=\"" ++ makeBinPath hook.bins ++ ":" ++
        concatStringsSep ":" (hook.paths.map SearchDir.text) ++ ":$PATH\"\n" ++
      "exec " ++ hook.command ++ " " ++ hook.args ++ "\n")

/-- The `PATH` that the command of the hook gets in an environment. -/
def hookPath (pkgs : Pkgs) (hook : HookArgs) (env : Env) : Option String :=
  (runScript env (mkHook pkgs hook).text.toList).map fun r => r.1.value "PATH"

/-! ### What the shell exports -/

theorem makeBinPath_eq (bins : List Package) :
    makeBinPath bins = String.intercalate ":" ((bins.map Package.bin).map SearchDir.text) := by
  rw [makeBinPath, concatStringsSep, List.map_map]
  rfl

def exportedPath (hook : HookArgs) (inherited : String) : String :=
  makeBinPath hook.bins ++ ":" ++ concatStringsSep ":" (hook.paths.map SearchDir.text) ++ ":" ++
    inherited

/-- Running the script exports `exportedPath` and then runs the command. -/
theorem runScript_mkHook (pkgs : Pkgs) (hook : HookArgs) (env : Env) :
    runScript env (mkHook pkgs hook).text.toList =
      some (env.set "PATH" (exportedPath hook (env.value "PATH")),
        (hook.command ++ " " ++ hook.args ++ "\n\n").toList.takeWhile (· != '\n')) := by
  let dirs := makeBinPath hook.bins ++ ":" ++ concatStringsSep ":" (hook.paths.map SearchDir.text)
  let command := (hook.command ++ " " ++ hook.args ++ "\n\n").toList
  have hliteral : ∀ c ∈ (dirs ++ ":").toList, isLiteral c = true := by
    intro c hc
    simp only [dirs, makeBinPath_eq, concatStringsSep, String.toList_append, List.mem_append] at hc
    have hcolon : ∀ c ∈ ":".toList, isLiteral c = true := List.all_eq_true.mp (by decide)
    rcases hc with ((hc | hc) | hc) | hc
    · exact SearchDir.literal_intercalate _ c hc
    · exact hcolon c hc
    · exact SearchDir.literal_intercalate _ c hc
    · exact hcolon c hc
  have hvalue : expandQuoted env .literal
      ((dirs ++ ":").toList ++ ("$PATH\"".toList ++ '\n' :: ("exec ".toList ++ command))) =
        some ((dirs ++ ":").toList ++ (env.value "PATH").toList,
          '\n' :: ("exec ".toList ++ command)) := by
    have hvar := expandQuoted_variable env 'P' "ATH".toList ('\n' :: ("exec ".toList ++ command))
      (by decide) (by decide)
    rw [expandQuoted_literal env _ _ hliteral]
    rw [show "$PATH\"".toList ++ '\n' :: ("exec ".toList ++ command) =
      '$' :: 'P' :: "ATH".toList ++ '"' :: '\n' :: ("exec ".toList ++ command) from rfl, hvar]
    rfl
  have htext : (mkHook pkgs hook).text.toList = '#' :: ('!' :: pkgs.runtimeShell.toList) ++
      '\n' :: ("export ".toList ++ ("PATH".toList ++ ("=\"".toList ++ ((dirs ++ ":").toList ++
        ("$PATH\"".toList ++ '\n' :: ("exec ".toList ++ command)))))) := by
    simp [mkHook, writeShellScript, dirs, command, String.toList_append]
  have hshebang : '\n' ∉ '!' :: pkgs.runtimeShell.toList := by
    simpa using pkgs.one_line
  have hexported : String.ofList ((dirs ++ ":").toList ++ (env.value "PATH").toList) =
      exportedPath hook (env.value "PATH") := by
    rw [← String.toList_append, String.ofList_toList]
    rfl
  rw [htext, runScript_comment env _ _ hshebang,
    runScript_export env "PATH" _ _ _ (by decide) hvalue, runScript_exec, hexported]

theorem hookPath_eq (pkgs : Pkgs) (hook : HookArgs) (env : Env) :
    hookPath pkgs hook env = some (exportedPath hook (env.value "PATH")) := by
  rw [hookPath, runScript_mkHook, Option.map_some, Env.value_set]

/-! ### What the command search makes of it -/

/-- The components that a joined list leaves in `PATH`. -/
def segment (dirs : List SearchDir) : List String :=
  if dirs = [] then [""] else dirs.map SearchDir.text

theorem splitPath_segment (dirs : List SearchDir) :
    splitPath (String.intercalate ":" (dirs.map SearchDir.text)) = segment dirs := by
  unfold segment
  split
  · rename_i hdirs
    rw [hdirs]
    exact splitPath_empty
  · rename_i hdirs
    exact SearchDir.splitPath_join hdirs

theorem splitPath_exportedPath (hook : HookArgs) (inherited : String) :
    splitPath (exportedPath hook inherited) =
      segment (hook.bins.map Package.bin) ++ segment hook.paths ++ splitPath inherited := by
  rw [exportedPath, splitPath_append, splitPath_append, makeBinPath_eq, concatStringsSep,
    splitPath_segment, splitPath_segment]

theorem empty_mem_segment (dirs : List SearchDir) : "" ∈ segment dirs ↔ dirs = [] := by
  unfold segment
  split
  · rename_i hdirs
    simp [hdirs]
  · rename_i hdirs
    constructor
    · intro h
      obtain ⟨d, _, hd⟩ := List.mem_map.mp h
      exact absurd hd d.ne_empty
    · intro h
      exact absurd h hdirs

/-- The hook searches the current directory as soon as one of its lists is empty. -/
theorem current_directory_iff (hook : HookArgs) (inherited : String) :
    "" ∈ splitPath (exportedPath hook inherited) ↔
      hook.bins = [] ∨ hook.paths = [] ∨ "" ∈ splitPath inherited := by
  rw [splitPath_exportedPath, List.mem_append, List.mem_append, empty_mem_segment,
    empty_mem_segment, List.map_eq_nil_iff, or_assoc]

/-- The hook searches the declared directories and then the inherited ones. -/
structure SearchesExactly (hook : HookArgs) (inherited exported : String) : Prop where
  split : splitPath exported =
    (hook.bins.map fun p => p.outPath ++ "/bin") ++ hook.paths.map SearchDir.text ++
      splitPath inherited
  first : ∀ executable cwd name, lookup executable cwd name (splitPath exported) =
    ((lookup executable cwd name (hook.bins.map fun p => p.outPath ++ "/bin")).or
      (lookup executable cwd name (hook.paths.map SearchDir.text))).or
      (lookup executable cwd name (splitPath inherited))
  current : "" ∈ splitPath exported → "" ∈ splitPath inherited

theorem searchesExactly_of_split {hook : HookArgs} {inherited exported : String}
    (h : splitPath exported =
      (hook.bins.map fun p => p.outPath ++ "/bin") ++ hook.paths.map SearchDir.text ++
        splitPath inherited) :
    SearchesExactly hook inherited exported := by
  refine ⟨h, ?_, ?_⟩
  · intro executable cwd name
    rw [h, lookup_append, lookup_append]
  · intro hmem
    rw [h, List.mem_append, List.mem_append] at hmem
    rcases hmem with (hmem | hmem) | hmem
    · rcases List.mem_map.mp hmem with ⟨p, _, hp⟩
      exact absurd hp p.bin.ne_empty
    · rcases List.mem_map.mp hmem with ⟨d, _, hd⟩
      exact absurd hd d.ne_empty
    · exact hmem

theorem searchesExactly_exportedPath_iff (hook : HookArgs) (inherited : String) :
    SearchesExactly hook inherited (exportedPath hook inherited) ↔
      hook.bins ≠ [] ∧ hook.paths ≠ [] := by
  have hsplit := splitPath_exportedPath hook inherited
  constructor
  · intro h
    -- an empty list joins to one component and declares none
    have hlen := congrArg List.length (h.split.symm.trans hsplit)
    simp only [List.length_append, List.length_map, segment, List.map_eq_nil_iff] at hlen
    constructor
    · intro hbins
      rw [hbins] at hlen
      by_cases hpaths : hook.paths = []
      · simp [hpaths] at hlen
      · simp [hpaths] at hlen
    · intro hpaths
      rw [hpaths] at hlen
      by_cases hbins : hook.bins = []
      · simp [hbins] at hlen
      · simp [hbins] at hlen
  · intro h
    apply searchesExactly_of_split
    rw [hsplit, segment, if_neg (by simpa using h.1), segment, if_neg h.2, List.map_map]
    rfl

/-- **The wrapper searches the declared directories exactly when both of its lists
    have an entry.** -/
theorem mkHook_searchesExactly_iff (pkgs : Pkgs) (hook : HookArgs) (env : Env) :
    ∃ exported, hookPath pkgs hook env = some exported ∧
      (SearchesExactly hook (env.value "PATH") exported ↔ hook.bins ≠ [] ∧ hook.paths ≠ []) := by
  refine ⟨_, hookPath_eq pkgs hook env, ?_⟩
  exact searchesExactly_exportedPath_iff hook (env.value "PATH")

/-! ### The hooks -/

section Hooks

variable (root : SearchDir)

/-- `${config.env.DEVENV_ROOT}/.devenv/profile/bin`. -/
def profileBin : SearchDir := root.below ⟨".devenv/profile/bin", by decide, by decide⟩

def clippy (cc lld binutils : Package) : HookArgs where
  command := "cargo-clippy"
  bins := [cc, lld, binutils]
  paths := [profileBin root]
  args := "clippy --all-targets --all-features"

def cargoDeny (cargo_deny : Package) : HookArgs where
  command := cargo_deny.outPath ++ "/bin/cargo-deny"
  paths := [profileBin root]
  args := "check"

def treefmt (treefmt rustfmt dprint typos : Package) : HookArgs where
  command := treefmt.outPath ++ "/bin/treefmt"
  bins := [treefmt, rustfmt, dprint, typos]
  args := "--fail-on-change --no-cache"

/-- `clippy` has packages and a path, so its search is the declared one. -/
theorem clippy_searchesExactly (cc lld binutils : Package) (inherited : String) :
    SearchesExactly (clippy root cc lld binutils) inherited
      (exportedPath (clippy root cc lld binutils) inherited) := by
  rw [searchesExactly_exportedPath_iff]
  constructor
  · exact List.cons_ne_nil _ _
  · exact List.cons_ne_nil _ _

/-- `cargo-deny` looks into the current directory before anything else, so a file
    there stands for any command. -/
theorem cargoDeny_current_directory_first (cargo_deny : Package) (executable : String → Bool)
    (cwd name inherited : String) (hfile : executable (cwd ++ "/" ++ name) = true) :
    lookup executable cwd name (splitPath (exportedPath (cargoDeny root cargo_deny) inherited)) =
      some (cwd ++ "/" ++ name) := by
  have hbins : segment ((cargoDeny root cargo_deny).bins.map Package.bin) = [""] := rfl
  rw [splitPath_exportedPath, hbins, lookup_append, lookup_append]
  simp [lookup, candidate, hfile]

end Hooks

/-- `treefmt` has no paths: its search goes from the packages to the current directory,
    and finds there what the inherited `PATH` would have given. -/
theorem treefmt_searches_current_directory :
    let package := fun (name : String) (plain) => Package.mk ("/nix/store/" ++ name) plain
    let hook := treefmt (package "treefmt" (by decide)) (package "rustfmt" (by decide))
      (package "dprint" (by decide)) (package "typos" (by decide))
    let env : Env := fun name => if name = "PATH" then some "/usr/bin" else none
    let exported := "/nix/store/treefmt/bin:/nix/store/rustfmt/bin:/nix/store/dprint/bin:" ++
      "/nix/store/typos/bin::/usr/bin"
    hookPath ⟨"/bin/sh", by decide⟩ hook env = some exported ∧
      splitPath exported = ["/nix/store/treefmt/bin", "/nix/store/rustfmt/bin",
        "/nix/store/dprint/bin", "/nix/store/typos/bin", "", "/usr/bin"] ∧
      splitPath "/usr/bin" = ["/usr/bin"] ∧
      lookup (fun file => file == "/repo/cargo" || file == "/usr/bin/cargo") "/repo" "cargo"
        (splitPath exported) = some "/repo/cargo" ∧
      ¬ SearchesExactly hook (env.value "PATH") exported := by
  intro package hook env exported
  have hpath : hookPath ⟨"/bin/sh", by decide⟩ hook env = some exported := by
    rw [hookPath_eq]
    decide
  have hsplit : splitPath exported = ["/nix/store/treefmt/bin", "/nix/store/rustfmt/bin",
      "/nix/store/dprint/bin", "/nix/store/typos/bin", "", "/usr/bin"] := by decide
  refine ⟨hpath, hsplit, by decide, by decide, ?_⟩
  intro h
  have hmem : "" ∈ splitPath exported := by
    rw [hsplit]
    decide
  have hinherited : "" ∉ splitPath (env.value "PATH") := by decide
  exact hinherited (h.current hmem)

end DevenvTemplate.Hooks
