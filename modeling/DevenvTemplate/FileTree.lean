import Mathlib.Data.Finset.Card
import Mathlib.Data.List.Infix
import Mathlib.Data.List.Pairwise

/-!
# Finite file trees addressed by path

A file tree assigns an entry to finitely many paths below a root directory.  A
path is the list of names leading from the root to the entry.  The structure
carries its own well-formedness: the root is a directory and every entry sits in
a directory, so a tree with an orphaned entry cannot be built and the operations
below re-establish the invariant once.

Directories carry data of type `δ` and every other entry carries data of type
`φ`; names are of any type with decidable equality.
-/

namespace FileTrees

/-- An entry of a file tree: a directory, or something that is not one. -/
inductive Entry (δ φ : Type) where
  | dir (data : δ)
  | leaf (data : φ)
deriving DecidableEq, Repr

abbrev Path (N : Type) := List N

variable {N δ φ : Type}

def Entry.isDir : Entry δ φ → Bool
  | .dir _ => true
  | .leaf _ => false

theorem Entry.isDir_iff {e : Entry δ φ} : e.isDir = true ↔ ∃ d, e = .dir d := by
  cases e <;> simp [Entry.isDir]

def Entry.withDirData (d : δ) : Entry δ φ → Entry δ φ
  | .dir _ => .dir d
  | .leaf x => .leaf x

def Entry.withLeafData (x : φ) : Entry δ φ → Entry δ φ
  | .dir d => .dir d
  | .leaf _ => .leaf x

@[simp] theorem Entry.isDir_withDirData (d : δ) (e : Entry δ φ) :
    (e.withDirData d).isDir = e.isDir := by
  cases e <;> rfl

@[simp] theorem Entry.isDir_withLeafData (x : φ) (e : Entry δ φ) :
    (e.withLeafData x).isDir = e.isDir := by
  cases e <;> rfl

/-! ### Paths -/

theorem prefix_eq_or_child {p q : Path N} (h : p <+: q) :
    q = p ∨ ∃ n, p ++ [n] <+: q := by
  rcases h with ⟨k, rfl⟩
  cases k with
  | nil => exact Or.inl (List.append_nil p)
  | cons n k => exact Or.inr ⟨n, k, by simp⟩

theorem not_child_prefix_self (p : Path N) (n : N) : ¬ p ++ [n] <+: p := by
  intro h
  have hlen := h.length_le
  rw [List.length_append, List.length_singleton] at hlen
  omega

theorem prefix_or_prefix {p q r : Path N} (hp : p <+: r) (hq : q <+: r) :
    p <+: q ∨ q <+: p := by
  rcases Nat.le_total p.length q.length with h | h
  · exact Or.inl (List.prefix_of_prefix_length_le hp hq h)
  · exact Or.inr (List.prefix_of_prefix_length_le hq hp h)

theorem prefix_antisymm {p q : Path N} (hpq : p <+: q) (hqp : q <+: p) : p = q :=
  hpq.eq_of_length (Nat.le_antisymm hpq.length_le hqp.length_le)

def Apart (p q : Path N) : Prop := ¬ p <+: q ∧ ¬ q <+: p

theorem Apart.symm {p q : Path N} (h : Apart p q) : Apart q p := ⟨h.2, h.1⟩

instance : Std.Symm (Apart (N := N)) := ⟨fun _ _ => Apart.symm⟩

theorem Apart.child {p q : Path N} (h : Apart p q) (n : N) : Apart (p ++ [n]) q := by
  refine ⟨fun hle => h.1 ((List.prefix_append p [n]).trans hle), ?_⟩
  intro hle
  rcases List.prefix_concat_iff.mp hle with heq | hqp
  · exact h.1 (heq ▸ List.prefix_append p [n])
  · exact h.2 hqp

theorem apart_children (p : Path N) {m n : N} (h : m ≠ n) : Apart (p ++ [m]) (p ++ [n]) := by
  have key : ∀ {i j : N}, i ≠ j → ¬ p ++ [i] <+: p ++ [j] := by
    intro i j hij hle
    have heq := hle.eq_of_length (by simp)
    exact hij (by simpa using heq)
  exact ⟨key h, key h.symm⟩

/-! ### Trees -/

/-- A finite tree of entries.  `dom` lists the paths that have an entry. -/
structure FileTree (N δ φ : Type) where
  entry : Path N → Option (Entry δ φ)
  dom : Finset (Path N)
  mem_dom : ∀ p, p ∈ dom ↔ (entry p).isSome
  root_dir : ∃ d, entry [] = some (.dir d)
  parent_dir : ∀ p n, (entry (p ++ [n])).isSome → ∃ d, entry p = some (.dir d)

namespace FileTree

theorem dir_of_proper_prefix (t : FileTree N δ φ) {p q : Path N}
    (h : p <+: q) (hne : p ≠ q) (hq : (t.entry q).isSome) :
    ∃ d, t.entry p = some (.dir d) := by
  induction q using List.reverseRecOn with
  | nil => exact absurd (List.prefix_nil.mp h) hne
  | append_singleton q n ih =>
    rcases t.parent_dir q n hq with ⟨d, hd⟩
    rcases List.prefix_concat_iff.mp h with heq | hpq
    · exact absurd heq hne
    · by_cases hpq' : p = q
      · exact ⟨d, hpq' ▸ hd⟩
      · exact ih hpq hpq' (by simp [hd])

theorem isSome_of_prefix (t : FileTree N δ φ) {p q : Path N}
    (h : p <+: q) (hq : (t.entry q).isSome) : (t.entry p).isSome := by
  by_cases hne : p = q
  · exact hne ▸ hq
  · obtain ⟨d, hd⟩ := t.dir_of_proper_prefix h hne hq
    simp [hd]

theorem none_of_prefix (t : FileTree N δ φ) {p q : Path N}
    (h : p <+: q) (hp : t.entry p = none) : t.entry q = none := by
  cases hq : t.entry q with
  | none => rfl
  | some e =>
    have := t.isSome_of_prefix h (by simp [hq])
    simp [hp] at this

/-- Whether a directory stands at the path: the shell's `[ -d p ]`. -/
def isDirectory (t : FileTree N δ φ) (p : Path N) : Bool :=
  match t.entry p with
  | some e => e.isDir
  | none => false

theorem isDirectory_iff (t : FileTree N δ φ) (p : Path N) :
    t.isDirectory p = true ↔ ∃ d, t.entry p = some (.dir d) := by
  unfold isDirectory
  cases h : t.entry p with
  | none => simp
  | some e => simpa using Entry.isDir_iff

/-! ### Reading a directory -/

def childNames [DecidableEq N] (t : FileTree N δ φ) (p : Path N) : Finset N :=
  t.dom.filterMap (fun q => if q.dropLast = p then q.getLast? else none) (by
    intro q q' n hq hq'
    simp only [Option.mem_def, Option.ite_none_right_eq_some] at hq hq'
    rcases hq with ⟨hdrop, hlast⟩
    rcases hq' with ⟨hdrop', hlast'⟩
    rw [← List.dropLast_append_getLast? n hlast, ← List.dropLast_append_getLast? n hlast',
      hdrop, hdrop'])

theorem mem_childNames [DecidableEq N] (t : FileTree N δ φ) (p : Path N) (n : N) :
    n ∈ t.childNames p ↔ (t.entry (p ++ [n])).isSome := by
  simp only [childNames, Finset.mem_filterMap, Option.ite_none_right_eq_some]
  constructor
  · rintro ⟨q, hq, hdrop, hlast⟩
    rw [← hdrop, List.dropLast_append_getLast? n hlast]
    exact (t.mem_dom q).mp hq
  · intro h
    exact ⟨p ++ [n], (t.mem_dom _).mpr h, by simp, by simp⟩

def subtree [DecidableEq N] (t : FileTree N δ φ) (p : Path N) : Finset (Path N) :=
  t.dom.filter fun q => p <+: q

theorem mem_subtree [DecidableEq N] (t : FileTree N δ φ) (p q : Path N) :
    q ∈ t.subtree p ↔ (t.entry q).isSome ∧ p <+: q := by
  rw [subtree, Finset.mem_filter, t.mem_dom]

/-- Going down from an entry leaves that entry behind. -/
theorem subtree_child_card_lt [DecidableEq N] (t : FileTree N δ φ) (p : Path N) (n : N)
    (h : (t.entry p).isSome) : (t.subtree (p ++ [n])).card < (t.subtree p).card := by
  apply Finset.card_lt_card
  rw [Finset.ssubset_iff_of_subset]
  · exact ⟨p, (t.mem_subtree p p).mpr ⟨h, List.prefix_rfl⟩,
      fun hp => not_child_prefix_self p n ((t.mem_subtree _ p).mp hp).2⟩
  · intro q hq
    obtain ⟨hsome, hpre⟩ := (t.mem_subtree _ q).mp hq
    exact (t.mem_subtree p q).mpr ⟨hsome, (List.prefix_append p [n]).trans hpre⟩

/-! ### Updates -/

def modify [DecidableEq N] (t : FileTree N δ φ) (p : Path N)
    (f : Entry δ φ → Entry δ φ) (hf : ∀ e, (f e).isDir = e.isDir) : FileTree N δ φ where
  entry q := if q = p then (t.entry q).map f else t.entry q
  dom := t.dom
  mem_dom q := by
    rw [t.mem_dom]
    split <;> simp
  root_dir := by
    rcases t.root_dir with ⟨d, hd⟩
    split
    · have : (f (.dir d)).isDir = true := hf (.dir d)
      rcases Entry.isDir_iff.mp this with ⟨d', hd'⟩
      exact ⟨d', by simp [hd, hd']⟩
    · exact ⟨d, hd⟩
  parent_dir q n h := by
    have hq : (t.entry (q ++ [n])).isSome := by
      split at h <;> simpa using h
    obtain ⟨d, hd⟩ := t.parent_dir q n hq
    split
    · have : (f (.dir d)).isDir = true := hf (.dir d)
      rcases Entry.isDir_iff.mp this with ⟨d', hd'⟩
      exact ⟨d', by simp [hd, hd']⟩
    · exact ⟨d, hd⟩

def setDirData [DecidableEq N] (t : FileTree N δ φ) (p : Path N) (d : δ) : FileTree N δ φ :=
  t.modify p (Entry.withDirData d) (Entry.isDir_withDirData d)

def setLeafData [DecidableEq N] (t : FileTree N δ φ) (p : Path N) (x : φ) : FileTree N δ φ :=
  t.modify p (Entry.withLeafData x) (Entry.isDir_withLeafData x)

/-- Remove the entry at a path with everything below it.  The root stays. -/
def erase [DecidableEq N] (t : FileTree N δ φ) (p : Path N) : FileTree N δ φ where
  entry q := if p ≠ [] ∧ p <+: q then none else t.entry q
  dom := t.dom.filter fun q => ¬ (p ≠ [] ∧ p <+: q)
  mem_dom q := by
    rw [Finset.mem_filter, t.mem_dom]
    split <;> simp_all
  root_dir := by
    rcases t.root_dir with ⟨d, hd⟩
    refine ⟨d, ?_⟩
    rw [if_neg, hd]
    rintro ⟨hne, hpre⟩
    exact hne (List.prefix_nil.mp hpre)
  parent_dir q n h := by
    have hnot : ¬ (p ≠ [] ∧ p <+: q ++ [n]) := by
      intro hp
      simp [hp] at h
    rw [if_neg hnot] at h
    rcases t.parent_dir q n h with ⟨d, hd⟩
    refine ⟨d, ?_⟩
    rw [if_neg, hd]
    rintro ⟨hne, hpre⟩
    exact hnot ⟨hne, hpre.trans (List.prefix_append q [n])⟩

def insert [DecidableEq N] (t : FileTree N δ φ) (p : Path N) (n : N) (e : Entry δ φ)
    (hparent : t.isDirectory p = true) (hnew : t.entry (p ++ [n]) = none) :
    FileTree N δ φ where
  entry q := if q = p ++ [n] then some e else t.entry q
  dom := Insert.insert (p ++ [n]) t.dom
  mem_dom q := by
    rw [Finset.mem_insert, t.mem_dom]
    split <;> simp_all
  root_dir := by
    obtain ⟨d, hd⟩ := t.root_dir
    exact ⟨d, by simp [hd]⟩
  parent_dir q m h := by
    have hq : q ≠ p ++ [n] := by
      rintro rfl
      have hsome : (t.entry (p ++ [n] ++ [m])).isSome := by simpa using h
      have := t.isSome_of_prefix (List.prefix_append (p ++ [n]) [m]) hsome
      simp [hnew] at this
    rw [if_neg hq]
    by_cases hqm : q ++ [m] = p ++ [n]
    · have hqp : q = p := by
        have := congrArg List.dropLast hqm
        simpa using this
      subst hqp
      exact (t.isDirectory_iff q).mp hparent
    · rw [if_neg hqm] at h
      exact t.parent_dir q m h

def empty (d : δ) : FileTree N δ φ where
  entry q := if q = [] then some (.dir d) else none
  dom := {[]}
  mem_dom q := by
    rw [Finset.mem_singleton]
    split <;> simp_all
  root_dir := ⟨d, rfl⟩
  parent_dir q n h := by simp at h

section Lookup

variable [DecidableEq N] (t : FileTree N δ φ) (p q : Path N)

theorem entry_setDirData (d : δ) :
    (t.setDirData p d).entry q =
      if q = p then (t.entry q).map (Entry.withDirData d) else t.entry q := rfl

theorem entry_setLeafData (x : φ) :
    (t.setLeafData p x).entry q =
      if q = p then (t.entry q).map (Entry.withLeafData x) else t.entry q := rfl

theorem entry_erase :
    (t.erase p).entry q = if p ≠ [] ∧ p <+: q then none else t.entry q := rfl

theorem entry_insert (n : N) (e : Entry δ φ) (hparent : t.isDirectory p = true)
    (hnew : t.entry (p ++ [n]) = none) :
    (t.insert p n e hparent hnew).entry q = if q = p ++ [n] then some e else t.entry q := rfl

end Lookup

end FileTree

end FileTrees
