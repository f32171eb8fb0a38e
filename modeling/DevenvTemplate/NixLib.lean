import DevenvTemplate.FileTree
import DevenvTemplate.FileName
import Mathlib.Data.Finset.Sort
import Mathlib.Data.List.Lex

/-!
# Nix paths, directory reading and string functions

The parts of the Nix language and of nixpkgs' `lib` that a module set needs.  A
path value is absolute and canonical; adding a string to it appends the text and
canonicalises the result.  `builtins.readDir` returns an attribute set, whose
names a traversal meets in increasing order.
-/

namespace Nix

open FileTrees

/-! ### Paths -/

abbrev NixPath := Path FileName

def componentText (p : NixPath) : List Char := p.flatMap fun n => '/' :: n.val.toList

def NixPath.text (p : NixPath) : List Char := if p = [] then ['/'] else componentText p

/-- One component of an absolute path: empty components and `.` say nothing and
    `..` goes back up. -/
def canonStep (p : NixPath) (component : List Char) : NixPath :=
  if h : IsFileName (String.ofList component) then p ++ [⟨String.ofList component, h⟩]
  else if component = ['.', '.'] then p.dropLast
  else p

def canonPath (text : List Char) : NixPath := (text.splitOn '/').foldl canonStep []

def NixPath.addString (p : NixPath) (s : String) : NixPath := canonPath (p.text ++ s.toList)

theorem canonStep_name (p : NixPath) (n : FileName) : canonStep p n.val.toList = p ++ [n] := by
  have h : IsFileName (String.ofList n.val.toList) := by
    rw [String.ofList_toList]
    exact n.property
  rw [canonStep, dif_pos h]
  congr 2
  exact Subtype.ext String.ofList_toList

theorem componentText_concat (p : NixPath) (n : FileName) :
    componentText (p ++ [n]) = componentText p ++ '/' :: n.val.toList := by
  simp [componentText]

theorem canonPath_append_name (text : List Char) (n : FileName) :
    canonPath (text ++ '/' :: n.val.toList) = canonPath text ++ [n] := by
  rw [canonPath, List.splitOn_append_cons_self, List.splitOn_eq_singleton n.property.2.2.2,
    List.foldl_append]
  exact canonStep_name _ n

theorem canonPath_componentText (p : NixPath) : canonPath (componentText p) = p := by
  induction p using List.reverseRecOn with
  | nil => decide
  | append_singleton p n ih => rw [componentText_concat, canonPath_append_name, ih]

theorem canonPath_text (p : NixPath) : canonPath p.text = p := by
  unfold NixPath.text
  by_cases hp : p = []
  · rw [if_pos hp, hp]
    decide
  · rw [if_neg hp, canonPath_componentText]

/-- Adding `/name` to a path goes to that entry of the directory. -/
theorem addString_name (p : NixPath) (n : FileName) : p.addString ("/" ++ n.val) = p ++ [n] := by
  have htext : ("/" ++ n.val).toList = '/' :: n.val.toList := by
    rw [String.toList_append]
    rfl
  rw [NixPath.addString, htext, canonPath_append_name, canonPath_text]

/-! ### Reading directories -/

inductive FileType where
  | regular | directory | symlink | unknown
deriving DecidableEq, Repr

inductive LeafType where
  | regular | symlink | unknown
deriving DecidableEq, Repr

def LeafType.toFileType : LeafType → FileType
  | .regular => .regular
  | .symlink => .symlink
  | .unknown => .unknown

def fileType : Entry Unit LeafType → FileType
  | .dir _ => .directory
  | .leaf type => type.toFileType

theorem fileType_eq_directory {e : Entry Unit LeafType} :
    fileType e = .directory ↔ e.isDir = true := by
  cases e with
  | dir d => simp [fileType, Entry.isDir]
  | leaf type => cases type <;> simp [fileType, LeafType.toFileType, Entry.isDir]

/-- A file system as `builtins.readDir` shows it. -/
abbrev SourceTree := FileTree FileName Unit LeafType

abbrev Directory (fs : SourceTree) := { p : NixPath // fs.isDirectory p = true }

/-- The attribute set `builtins.readDir` returns, in the order of its names. -/
def readDir (fs : SourceTree) (dir : NixPath) : List (FileName × FileType) :=
  ((fs.childNames dir).sort (· ≤ ·)).filterMap fun n =>
    (fs.entry (dir ++ [n])).map fun e => (n, fileType e)

theorem mem_readDir (fs : SourceTree) (dir : NixPath) (n : FileName) (type : FileType) :
    (n, type) ∈ readDir fs dir ↔ ∃ e, fs.entry (dir ++ [n]) = some e ∧ fileType e = type := by
  simp only [readDir, List.mem_filterMap, Finset.mem_sort, Option.map_eq_some_iff, Prod.mk.injEq,
    fs.mem_childNames]
  constructor
  · intro h
    rcases h with ⟨m, _, e, he, rfl, htype⟩
    exact ⟨e, he, htype⟩
  · intro h
    obtain ⟨e, he, htype⟩ := h
    exact ⟨n, by simp [he], e, he, rfl, htype⟩

theorem readDir_sorted (fs : SourceTree) (dir : NixPath) :
    (readDir fs dir).Pairwise fun x y => x.1 < y.1 := by
  rw [readDir, List.pairwise_filterMap]
  refine (fs.childNames dir).sortedLT_sort.pairwise.imp ?_
  intro m n hlt x hx y hy
  rcases Option.map_eq_some_iff.mp hx with ⟨e, _, rfl⟩
  rcases Option.map_eq_some_iff.mp hy with ⟨e', _, rfl⟩
  exact hlt

theorem readDir_isDirectory {fs : SourceTree} {dir : NixPath} {n : FileName}
    (h : (n, FileType.directory) ∈ readDir fs dir) : fs.isDirectory (dir ++ [n]) = true := by
  obtain ⟨e, he, htype⟩ := (mem_readDir fs dir n _).mp h
  rcases Entry.isDir_iff.mp (fileType_eq_directory.mp htype) with ⟨d, rfl⟩
  exact (fs.isDirectory_iff _).mpr ⟨d, he⟩

/-! ### `lib` -/

/-- `lib.hasPrefix`: the first characters of `str` are `pref`. -/
def hasPrefix (pref str : String) : Bool := str.toList.take pref.toList.length == pref.toList

/-- `lib.hasSuffix`: `content` is long enough and ends in `suffix`. -/
def hasSuffix (suffix content : String) : Bool :=
  decide (suffix.toList.length ≤ content.toList.length) &&
    content.toList.drop (content.toList.length - suffix.toList.length) == suffix.toList

theorem hasPrefix_iff (pref str : String) :
    hasPrefix pref str = true ↔ pref.toList <+: str.toList := by
  rw [hasPrefix, beq_iff_eq, List.prefix_iff_eq_take]
  exact eq_comm

theorem hasSuffix_iff (suffix content : String) :
    hasSuffix suffix content = true ↔ suffix.toList <:+ content.toList := by
  rw [hasSuffix, Bool.and_eq_true, decide_eq_true_eq, beq_iff_eq, List.suffix_iff_eq_drop]
  constructor
  · intro h
    exact h.2.symm
  · intro h
    have hlen := congrArg List.length h
    rw [List.length_drop] at hlen
    exact ⟨by omega, h.symm⟩

/-- `lib.concatStringsSep`. -/
def concatStringsSep (sep : String) (strings : List String) : String :=
  sep.intercalate strings

end Nix
