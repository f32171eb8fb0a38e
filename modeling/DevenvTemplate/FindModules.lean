import DevenvTemplate.NixLib
import Mathlib.Tactic.Tauto

/-!
# Module auto-discovery

`findModules` of `devenv.nix` walks a directory tree and returns the paths that
`imports` receives.  `IsModule` states which paths these should be, without a
recursion; `mem_findModules` and `findModules_sorted` show that the list is
exactly those paths in increasing order, and a list with these two properties is
determined by its members, which is what relates the imports of two trees.
-/

namespace DevenvTemplate.Modules

open FileTrees Nix

/-! ### The recursion -/

/-- `findModules`, with `processEntry` in place.  It reads the directory again at
    each level, so the recursion is on the part of the tree below it. -/
def findModules (fs : SourceTree) (dir : Directory fs) : List NixPath :=
  let entries := readDir fs dir.val
  let processEntry := fun entry : { x // x ∈ entries } =>
    let name := entry.val.1
    let type := entry.val.2
    if hasPrefix "_" name.val then
      []
    else if htype : type = .directory then
      findModules fs ⟨dir.val.addString ("/" ++ name.val), by
        rw [addString_name]
        exact readDir_isDirectory (htype ▸ entry.property)⟩
    else if hasSuffix ".nix" name.val then
      [dir.val.addString ("/" ++ name.val)]
    else
      []
  (entries.attach.map processEntry).flatten
termination_by (fs.subtree dir.val).card
decreasing_by
  rw [addString_name]
  apply fs.subtree_child_card_lt
  rcases (fs.isDirectory_iff dir.val).mp dir.property with ⟨d, hd⟩
  simp [hd]

def processEntry (fs : SourceTree) (dir : Directory fs)
    (entry : { x // x ∈ readDir fs dir.val }) : List NixPath :=
  if hasPrefix "_" entry.val.1.val then
    []
  else if htype : entry.val.2 = .directory then
    findModules fs ⟨dir.val.addString ("/" ++ entry.val.1.val), by
      rw [addString_name]
      exact readDir_isDirectory (htype ▸ entry.property)⟩
  else if hasSuffix ".nix" entry.val.1.val then
    [dir.val.addString ("/" ++ entry.val.1.val)]
  else
    []

theorem findModules_eq (fs : SourceTree) (dir : Directory fs) :
    findModules fs dir = ((readDir fs dir.val).attach.map (processEntry fs dir)).flatten := by
  rw [findModules]
  rfl

/-- `imports` of the shell, for a tree whose module directory is `dir`. -/
def imports (fs : SourceTree) (dir : Directory fs) : List NixPath := findModules fs dir

theorem directory_isSome {fs : SourceTree} (dir : Directory fs) : (fs.entry dir.val).isSome := by
  obtain ⟨d, hd⟩ := (fs.isDirectory_iff dir.val).mp dir.property
  simp [hd]

/-! ### Which paths are modules -/

/-- `cs` leads from `dir` to a module: through directories to an entry that is no
    directory and whose name ends in `.nix`, with no name starting in `_`. -/
structure IsModule (fs : SourceTree) (dir : NixPath) (cs : Path FileName) : Prop where
  dirs : ∀ q, q <+: cs → q ≠ [] → q ≠ cs → fs.isDirectory (dir ++ q) = true
  file : ∃ type, fs.entry (dir ++ cs) = some (.leaf type)
  named : ∃ c, cs.getLast? = some c ∧ ".nix".toList <:+ c.val.toList
  visible : ∀ c ∈ cs, ¬ "_".toList <+: c.val.toList

theorem isModule_singleton (fs : SourceTree) (dir : NixPath) (n : FileName) :
    IsModule fs dir [n] ↔
      ¬ "_".toList <+: n.val.toList ∧ (∃ type, fs.entry (dir ++ [n]) = some (.leaf type)) ∧
        ".nix".toList <:+ n.val.toList := by
  constructor
  · intro h
    rcases h.named with ⟨c, hc, hsuffix⟩
    obtain rfl : n = c := by simpa using hc
    exact ⟨h.visible n List.mem_cons_self, h.file, hsuffix⟩
  · intro h
    refine ⟨?_, h.2.1, ⟨n, rfl, h.2.2⟩, ?_⟩
    · intro q hq hne hne'
      have hlen := hq.length_le
      cases q with
      | nil => exact absurd rfl hne
      | cons m q => exact absurd (hq.eq_of_length_le (by simp)) hne'
    · intro c hc
      rw [List.mem_singleton.mp hc]
      exact h.1

theorem isModule_cons (fs : SourceTree) (dir : NixPath) (n : FileName) {cs : Path FileName}
    (hcs : cs ≠ []) :
    IsModule fs dir (n :: cs) ↔
      ¬ "_".toList <+: n.val.toList ∧ fs.isDirectory (dir ++ [n]) = true ∧
        IsModule fs (dir ++ [n]) cs := by
  have hassoc : ∀ q, dir ++ n :: q = dir ++ [n] ++ q := by simp
  have hlast : (n :: cs).getLast? = cs.getLast? := by
    cases cs with
    | nil => exact absurd rfl hcs
    | cons c cs => rw [List.getLast?_cons_cons]
  constructor
  · intro h
    refine ⟨h.visible n List.mem_cons_self, ?_, ?_, ?_, ?_, ?_⟩
    · exact h.dirs [n] (by simp) (by simp) (by simpa using hcs.symm)
    · intro q hq hne hne'
      rw [← hassoc]
      exact h.dirs (n :: q) (by simpa using hq) (by simp) (by simpa using hne')
    · rw [← hassoc]
      exact h.file
    · rw [← hlast]
      exact h.named
    · intro c hc
      exact h.visible c (List.mem_cons_of_mem n hc)
  · intro h
    rcases h with ⟨hvisible, hdir, hrest⟩
    refine ⟨?_, ?_, ?_, ?_⟩
    · intro q hq hne hne'
      cases q with
      | nil => exact absurd rfl hne
      | cons m q =>
        obtain ⟨rfl, hqcs⟩ := List.cons_prefix_cons.mp hq
        by_cases hnil : q = []
        · rw [hnil]
          exact hdir
        · rw [hassoc]
          exact hrest.dirs q hqcs hnil (fun heq => hne' (heq ▸ rfl))
    · rw [hassoc]
      exact hrest.file
    · rw [hlast]
      exact hrest.named
    · intro c hc
      rcases List.mem_cons.mp hc with rfl | hc
      · exact hvisible
      · exact hrest.visible c hc

/-! ### The list is exactly the modules -/

theorem mem_processEntry (fs : SourceTree) (dir : Directory fs) (p : NixPath)
    (entry : { x // x ∈ readDir fs dir.val }) :
    p ∈ processEntry fs dir entry ↔
      ¬ "_".toList <+: entry.val.1.val.toList ∧
        ((∃ h : fs.isDirectory (dir.val ++ [entry.val.1]) = true,
            p ∈ findModules fs ⟨dir.val ++ [entry.val.1], h⟩) ∨
          (∃ type, fs.entry (dir.val ++ [entry.val.1]) = some (.leaf type)) ∧
            ".nix".toList <:+ entry.val.1.val.toList ∧ p = dir.val ++ [entry.val.1]) := by
  rcases entry with ⟨⟨n, type⟩, hentry⟩
  rcases (mem_readDir fs dir.val n type).mp hentry with ⟨e, he, htype⟩
  simp only [processEntry, addString_name, ← hasPrefix_iff, ← hasSuffix_iff]
  by_cases hpref : hasPrefix "_" n.val = true
  · simp [hpref]
  · rw [if_neg hpref]
    cases e with
    | dir d =>
      obtain rfl : FileType.directory = type := htype
      have hdir : fs.isDirectory (dir.val ++ [n]) = true := (fs.isDirectory_iff _).mpr ⟨d, he⟩
      simp [hpref, he, hdir]
    | leaf leafType =>
      have hne : type ≠ .directory := by
        rw [← htype]
        intro heq
        have hleaf := fileType_eq_directory.mp heq
        simp [Entry.isDir] at hleaf
      have hdir : ¬ fs.isDirectory (dir.val ++ [n]) = true := by
        rw [fs.isDirectory_iff]
        simp [he]
      by_cases hsuffix : hasSuffix ".nix" n.val = true
      · simp [hpref, he, hdir, hne, hsuffix]
      · simp [hpref, he, hdir, hne, hsuffix]

theorem mem_findModules_iff_entry (fs : SourceTree) (dir : Directory fs) (p : NixPath) :
    p ∈ findModules fs dir ↔ ∃ entry, p ∈ processEntry fs dir entry := by
  rw [findModules_eq]
  simp only [List.mem_flatten, List.mem_map, List.mem_attach, true_and]
  constructor
  · intro h
    obtain ⟨_, ⟨entry, rfl⟩, hp⟩ := h
    exact ⟨entry, hp⟩
  · intro h
    rcases h with ⟨entry, hp⟩
    exact ⟨_, ⟨entry, rfl⟩, hp⟩

theorem isModule_of_mem (fs : SourceTree) (dir : Directory fs) (p : NixPath)
    (hp : p ∈ findModules fs dir) : ∃ cs, p = dir.val ++ cs ∧ IsModule fs dir.val cs := by
  induction hcard : (fs.subtree dir.val).card using Nat.strong_induction_on generalizing dir p with
  | _ k ih =>
    rcases (mem_findModules_iff_entry fs dir p).mp hp with ⟨entry, hentry⟩
    rcases (mem_processEntry fs dir p entry).mp hentry with
      ⟨hvisible, ⟨hdir, hrec⟩ | ⟨hfile, hsuffix, rfl⟩⟩
    · have hlt := fs.subtree_child_card_lt dir.val entry.val.1 (directory_isSome dir)
      rcases ih _ (hcard ▸ hlt) ⟨_, hdir⟩ p hrec rfl with ⟨cs, rfl, hcs⟩
      refine ⟨entry.val.1 :: cs, by simp, (isModule_cons fs dir.val _ ?_).mpr
        ⟨hvisible, hdir, hcs⟩⟩
      -- a module lies strictly below the directory it is found in
      rintro rfl
      obtain ⟨c, hc, _⟩ := hcs.named
      cases hc
    · exact ⟨[entry.val.1], rfl, (isModule_singleton fs dir.val _).mpr
        ⟨hvisible, hfile, hsuffix⟩⟩

theorem mem_of_isModule (fs : SourceTree) (dir : Directory fs) (cs : Path FileName)
    (h : IsModule fs dir.val cs) : dir.val ++ cs ∈ findModules fs dir := by
  induction cs generalizing dir with
  | nil =>
    rcases h.named with ⟨c, hc, _⟩
    cases hc
  | cons n cs ih =>
    rw [mem_findModules_iff_entry]
    by_cases hcs : cs = []
    · subst hcs
      rcases (isModule_singleton fs dir.val n).mp h with ⟨hvisible, ⟨type, htype⟩, hsuffix⟩
      have hentry := (mem_readDir fs dir.val n _).mpr ⟨_, htype, rfl⟩
      exact ⟨⟨_, hentry⟩, (mem_processEntry fs dir _ _).mpr
        ⟨hvisible, Or.inr ⟨⟨type, htype⟩, hsuffix, rfl⟩⟩⟩
    · obtain ⟨hvisible, hdir, hrest⟩ := (isModule_cons fs dir.val n hcs).mp h
      rcases (fs.isDirectory_iff _).mp hdir with ⟨d, hd⟩
      have hentry := (mem_readDir fs dir.val n _).mpr ⟨_, hd, rfl⟩
      refine ⟨⟨_, hentry⟩, (mem_processEntry fs dir _ _).mpr ⟨hvisible, Or.inl ⟨hdir, ?_⟩⟩⟩
      have hmem := ih ⟨dir.val ++ [n], hdir⟩ hrest
      rw [List.append_assoc] at hmem
      exact hmem

theorem mem_findModules (fs : SourceTree) (dir : Directory fs) (p : NixPath) :
    p ∈ findModules fs dir ↔ ∃ cs, p = dir.val ++ cs ∧ IsModule fs dir.val cs := by
  constructor
  · exact isModule_of_mem fs dir p
  · intro h
    rcases h with ⟨cs, rfl, hcs⟩
    exact mem_of_isModule fs dir cs hcs

/-! ### Order -/

theorem lt_of_child_lt {dir p q : NixPath} {m n : FileName} (hlt : m < n)
    (hp : dir ++ [m] <+: p) (hq : dir ++ [n] <+: q) : p < q := by
  obtain ⟨k, rfl⟩ := hp
  rcases hq with ⟨l, rfl⟩
  rw [List.append_assoc, List.append_assoc]
  apply List.append_left_lt
  exact List.cons_lt_cons_iff.mpr (Or.inl hlt)

theorem entry_prefix_of_mem (fs : SourceTree) (dir : Directory fs) (p : NixPath)
    (entry : { x // x ∈ readDir fs dir.val }) (hp : p ∈ processEntry fs dir entry) :
    dir.val ++ [entry.val.1] <+: p := by
  rcases (mem_processEntry fs dir p entry).mp hp with ⟨_, ⟨hdir, hrec⟩ | ⟨_, _, rfl⟩⟩
  · rcases isModule_of_mem fs _ p hrec with ⟨cs, rfl, _⟩
    exact List.prefix_append _ cs
  · exact List.prefix_rfl

/-- An entry contributes nothing, the modules of its directory, or itself. -/
theorem processEntry_cases (fs : SourceTree) (dir : Directory fs)
    (entry : { x // x ∈ readDir fs dir.val }) :
    processEntry fs dir entry = [] ∨
      (∃ h, processEntry fs dir entry = findModules fs ⟨dir.val ++ [entry.val.1], h⟩) ∨
      processEntry fs dir entry = [dir.val ++ [entry.val.1]] := by
  simp only [processEntry, addString_name]
  split
  · exact Or.inl rfl
  · split
    · rename_i htype
      exact Or.inr (Or.inl ⟨readDir_isDirectory (htype ▸ entry.property), rfl⟩)
    · split
      · exact Or.inr (Or.inr rfl)
      · exact Or.inl rfl

theorem findModules_sorted (fs : SourceTree) (dir : Directory fs) :
    (findModules fs dir).Pairwise (· < ·) := by
  induction hcard : (fs.subtree dir.val).card using Nat.strong_induction_on generalizing dir with
  | _ k ih =>
    rw [findModules_eq, List.pairwise_flatten, List.pairwise_map]
    constructor
    · intro l hl
      rcases List.mem_map.mp hl with ⟨entry, _, rfl⟩
      rcases processEntry_cases fs dir entry with h | ⟨hdir, h⟩ | h
      · rw [h]
        exact List.Pairwise.nil
      · rw [h]
        have hlt := fs.subtree_child_card_lt dir.val entry.val.1 (directory_isSome dir)
        exact ih _ (hcard ▸ hlt) ⟨_, hdir⟩ rfl
      · rw [h]
        exact List.pairwise_singleton _ _
    · have hsorted := readDir_sorted fs dir.val
      rw [← List.attach_map_subtype_val (readDir fs dir.val), List.pairwise_map] at hsorted
      apply hsorted.imp
      intro x y hlt p hp q hq
      exact lt_of_child_lt hlt (entry_prefix_of_mem fs dir p x hp)
        (entry_prefix_of_mem fs dir q y hq)

/-! ### Adding and removing a module -/

theorem IsModule.congr {fs fs' : SourceTree} {dir : NixPath} {cs : Path FileName}
    (h : IsModule fs dir cs) (hdirs : ∀ q, fs'.isDirectory q = fs.isDirectory q)
    (hfile : fs'.entry (dir ++ cs) = fs.entry (dir ++ cs)) : IsModule fs' dir cs := by
  refine ⟨?_, ?_, h.named, h.visible⟩
  · intro q hq hne hne'
    rw [hdirs]
    exact h.dirs q hq hne hne'
  · rw [hfile]
    exact h.file

theorem IsModule.entry_ne_none {fs : SourceTree} {dir : NixPath} {cs : Path FileName}
    (h : IsModule fs dir cs) : fs.entry (dir ++ cs) ≠ none := by
  rcases h.file with ⟨type, htype⟩
  rw [htype]
  intro hnone
  cases hnone

/-- Increasing lists that differ in one member differ in one place. -/
theorem exists_split_of_mem_iff {α : Type} [LinearOrder α] {l l' : List α} {a : α}
    (hl : l.Pairwise (· < ·)) (hl' : l'.Pairwise (· < ·)) (ha : a ∉ l)
    (hmem : ∀ p, p ∈ l' ↔ p = a ∨ p ∈ l) :
    ∃ before after, l = before ++ after ∧ l' = before ++ a :: after := by
  rcases List.append_of_mem ((hmem a).mpr (Or.inl rfl)) with ⟨before, after, hsplit⟩
  have hmid : a ∉ before ++ after := by
    have hnodup := hl'.nodup
    rw [hsplit, List.nodup_middle, List.nodup_cons] at hnodup
    exact hnodup.1
  have hrest : (before ++ after).Pairwise (· < ·) := by
    rw [hsplit] at hl'
    exact hl'.sublist ((List.sublist_cons_self _ _).append_left before)
  refine ⟨before, after, hl.eq_of_mem_iff hrest ?_, hsplit⟩
  intro p
  have hp := hmem p
  rw [hsplit, List.mem_append, List.mem_cons] at hp
  rw [List.mem_append]
  by_cases heq : p = a
  · subst heq
    rw [List.mem_append] at hmid
    exact ⟨fun h => absurd h ha, fun h => absurd h hmid⟩
  · tauto

section Insert

variable {fs fs' : SourceTree} {dir : NixPath} {cs : Path FileName}
  (hmodule : IsModule fs' dir cs) (hnew : fs.entry (dir ++ cs) = none)
  (hsame : ∀ q, q ≠ dir ++ cs → fs'.entry q = fs.entry q)

include hmodule hnew hsame

theorem isDirectory_insert (q : NixPath) : fs'.isDirectory q = fs.isDirectory q := by
  by_cases hq : q = dir ++ cs
  · rcases hmodule.file with ⟨type, htype⟩
    rw [hq, FileTree.isDirectory, FileTree.isDirectory, hnew, htype]
    rfl
  · rw [FileTree.isDirectory, FileTree.isDirectory, hsame q hq]

/-- One more module file is one more module. -/
theorem isModule_insert_iff (cs' : Path FileName) :
    IsModule fs' dir cs' ↔ cs' = cs ∨ IsModule fs dir cs' := by
  have hdirs := isDirectory_insert hmodule hnew hsame
  by_cases hcs : cs' = cs
  · subst hcs
    exact ⟨fun _ => Or.inl rfl, fun _ => hmodule⟩
  · have hfile : fs'.entry (dir ++ cs') = fs.entry (dir ++ cs') := by
      apply hsame
      intro heq
      exact hcs (List.append_cancel_left heq)
    constructor
    · intro h
      exact Or.inr (h.congr (fun q => (hdirs q).symm) hfile.symm)
    · intro h
      rcases h with heq | h
      · exact absurd heq hcs
      · exact h.congr hdirs hfile

end Insert

/-- Two trees that differ in one module file have the same imports but for that
    file, in the same order. -/
theorem findModules_insert {fs fs' : SourceTree} (dir : Directory fs) (dir' : Directory fs')
    (hdir : dir'.val = dir.val) {cs : Path FileName} (hmodule : IsModule fs' dir.val cs)
    (hnew : fs.entry (dir.val ++ cs) = none)
    (hsame : ∀ q, q ≠ dir.val ++ cs → fs'.entry q = fs.entry q) :
    ∃ before after, findModules fs dir = before ++ after ∧
      findModules fs' dir' = before ++ (dir.val ++ cs) :: after := by
  apply exists_split_of_mem_iff (findModules_sorted fs dir) (findModules_sorted fs' dir')
  · intro hmem
    rcases (mem_findModules fs dir _).mp hmem with ⟨cs', hp, h⟩
    rw [← List.append_cancel_left hp] at h
    exact h.entry_ne_none hnew
  · intro p
    rw [mem_findModules, mem_findModules, hdir]
    simp only [isModule_insert_iff hmodule hnew hsame]
    constructor
    · intro h
      rcases h with ⟨cs', rfl, rfl | h⟩
      · exact Or.inl rfl
      · exact Or.inr ⟨cs', rfl, h⟩
    · intro h
      rcases h with rfl | ⟨cs', rfl, h⟩
      · exact ⟨cs, rfl, Or.inl rfl⟩
      · exact ⟨cs', rfl, Or.inr h⟩

section Erase

variable {fs : SourceTree} {dir : NixPath} {cs : Path FileName} (hmodule : IsModule fs dir cs)

include hmodule

theorem module_ne_root : dir ++ cs ≠ [] := by
  intro hroot
  rcases hmodule.file with ⟨type, htype⟩
  rcases fs.root_dir with ⟨d, hd⟩
  rw [hroot, hd] at htype
  cases htype

theorem erase_module_entry : (fs.erase (dir ++ cs)).entry (dir ++ cs) = none := by
  rw [FileTree.entry_erase, if_pos ⟨module_ne_root hmodule, List.prefix_rfl⟩]

/-- A module is no directory, so that nothing else goes with it. -/
theorem erase_module_same (q : NixPath) (hq : q ≠ dir ++ cs) :
    fs.entry q = (fs.erase (dir ++ cs)).entry q := by
  rw [FileTree.entry_erase]
  by_cases hpre : dir ++ cs <+: q
  · rw [if_pos ⟨module_ne_root hmodule, hpre⟩]
    by_contra hsome
    rcases fs.dir_of_proper_prefix hpre hq.symm (Option.isSome_iff_ne_none.mpr hsome) with ⟨d, hd⟩
    rcases hmodule.file with ⟨type, htype⟩
    rw [htype] at hd
    cases hd
  · rw [if_neg (fun h => hpre h.2)]

theorem erase_module_isDirectory (q : NixPath) :
    fs.isDirectory q = (fs.erase (dir ++ cs)).isDirectory q :=
  isDirectory_insert hmodule (erase_module_entry hmodule) (erase_module_same hmodule) q

end Erase

/-- The tree without one module file has the same directories. -/
def eraseModule {fs : SourceTree} (dir : Directory fs) {cs : Path FileName}
    (hmodule : IsModule fs dir.val cs) : Directory (fs.erase (dir.val ++ cs)) :=
  ⟨dir.val, (erase_module_isDirectory hmodule dir.val).symm.trans dir.property⟩

theorem findModules_erase {fs : SourceTree} (dir : Directory fs) {cs : Path FileName}
    (hmodule : IsModule fs dir.val cs) :
    ∃ before after, findModules fs dir = before ++ (dir.val ++ cs) :: after ∧
      findModules (fs.erase (dir.val ++ cs)) (eraseModule dir hmodule) = before ++ after := by
  rcases findModules_insert (eraseModule dir hmodule) dir rfl hmodule
    (erase_module_entry hmodule) (erase_module_same hmodule) with ⟨before, after, hbefore, hafter⟩
  exact ⟨before, after, hafter, hbefore⟩

theorem directory_not_mem (fs : SourceTree) (dir : Directory fs) (p : NixPath)
    (hp : fs.isDirectory p = true) : p ∉ findModules fs dir := by
  intro hmem
  obtain ⟨cs, rfl, hcs⟩ := (mem_findModules fs dir p).mp hmem
  rcases hcs.file with ⟨type, htype⟩
  rcases (fs.isDirectory_iff _).mp hp with ⟨d, hd⟩
  rw [htype] at hd
  cases hd

theorem underscore_not_mem (fs : SourceTree) (dir : Directory fs) (cs : Path FileName)
    (c : FileName) (hc : c ∈ cs) (hunderscore : "_".toList <+: c.val.toList) :
    dir.val ++ cs ∉ findModules fs dir := by
  intro hmem
  rcases (mem_findModules fs dir _).mp hmem with ⟨cs', heq, hcs⟩
  rw [← List.append_cancel_left heq] at hcs
  exact hcs.visible c hc hunderscore

/-- **Module discovery is exact.**  The imports are the modules below the directory,
    each once and in increasing order; and a module file more or less is one import
    more or less, with the others as they were. -/
theorem imports_exact (fs : SourceTree) (dir : Directory fs) :
    (∀ p, p ∈ imports fs dir ↔ ∃ cs, p = dir.val ++ cs ∧ IsModule fs dir.val cs) ∧
      (imports fs dir).Pairwise (· < ·) ∧ (imports fs dir).Nodup ∧
      (∀ p, fs.isDirectory p = true → p ∉ imports fs dir) ∧
      (∀ cs c, c ∈ cs → "_".toList <+: c.val.toList → dir.val ++ cs ∉ imports fs dir) ∧
      (∀ (fs' : SourceTree) (dir' : Directory fs') (cs : Path FileName),
        dir'.val = dir.val → IsModule fs' dir.val cs → fs.entry (dir.val ++ cs) = none →
        (∀ q, q ≠ dir.val ++ cs → fs'.entry q = fs.entry q) →
        ∃ before after, imports fs dir = before ++ after ∧
          imports fs' dir' = before ++ (dir.val ++ cs) :: after) ∧
      ∀ (cs : Path FileName) (hmodule : IsModule fs dir.val cs),
        ∃ before after, imports fs dir = before ++ (dir.val ++ cs) :: after ∧
          imports (fs.erase (dir.val ++ cs)) (eraseModule dir hmodule) = before ++ after := by
  refine ⟨?_, ?_, ?_, ?_, ?_, ?_, ?_⟩
  · intro p
    exact mem_findModules fs dir p
  · exact findModules_sorted fs dir
  · exact (findModules_sorted fs dir).nodup
  · intro p hp
    exact directory_not_mem fs dir p hp
  · intro cs c hc hunderscore
    exact underscore_not_mem fs dir cs c hc hunderscore
  · intro fs' dir' cs hdir hmodule hnew hsame
    exact findModules_insert dir dir' hdir hmodule hnew hsame
  · intro cs hmodule
    exact findModules_erase dir hmodule

end DevenvTemplate.Modules
