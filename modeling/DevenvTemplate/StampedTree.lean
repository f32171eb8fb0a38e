import DevenvTemplate.FileTree
import Mathlib.Algebra.Order.Ring.Int

/-!
# Modification times and POSIX stamping

Directories and files of a stamped tree carry their modification time.  Creating
or deleting an entry stamps the entry and the directory that holds it; writing a
file stamps that file only.  `lastStamp` reads a modification time off a history
of such events without running it, and `mtime_run` is the theorem that the two
agree: this is what lets a statement about a tree be turned into one about the
events that produced it.
-/

namespace FileTrees

/-- Points in time and durations, in nanoseconds. -/
abbrev Time := Int

def day : Time := 86400 * 1000000000

/-- Whole days between a modification time and now, any fraction ignored. -/
def ageDays (now mtime : Time) : Int := (now - mtime) / day

theorem ageDays_anti {now earlier later : Time} (h : earlier ≤ later) :
    ageDays now later ≤ ageDays now earlier :=
  Int.ediv_le_ediv (by decide) (Int.sub_le_sub_left h now)

abbrev StampedTree (N : Type) := FileTree N Time Time

variable {N : Type}

def Entry.mtime : Entry Time Time → Time
  | .dir m => m
  | .leaf m => m

namespace FileTree

def mtime (t : StampedTree N) (p : Path N) : Option Time := (t.entry p).map Entry.mtime

variable [DecidableEq N]

/-- The net effect of `rm -rf p` at a given time: the entry goes with everything
    below it and its directory is stamped.  A missing operand is no error, and
    `rm` refuses the directory it runs in. -/
def removeTree (t : StampedTree N) (clock : Time) (p : Path N) : StampedTree N :=
  if p ≠ [] ∧ (t.entry p).isSome then (t.erase p).setDirData p.dropLast clock else t

theorem entry_removeTree (t : StampedTree N) (clock : Time) (p q : Path N) (hp : p ≠ []) :
    (t.removeTree clock p).entry q =
      if p <+: q then none
      else if q = p.dropLast ∧ (t.entry p).isSome then (t.entry q).map (Entry.withDirData clock)
      else t.entry q := by
  unfold removeTree
  by_cases hsome : (t.entry p).isSome
  · rw [if_pos ⟨hp, hsome⟩, entry_setDirData, entry_erase]
    by_cases hpq : p <+: q
    · simp [hp, hpq]
    · simp [hpq, hsome]
  · rw [if_neg (fun h => hsome h.2)]
    by_cases hpq : p <+: q
    · rw [if_pos hpq]
      exact t.none_of_prefix hpq (by simpa using hsome)
    · simp [hpq, hsome]

end FileTree

/-! ### Events -/

/-- A change of the tree by one system call, naming an entry by its directory
    and its name in it. -/
inductive Event (N : Type) where
  | createFile (dir : Path N) (name : N)
  | createDir (dir : Path N) (name : N)
  | delete (dir : Path N) (name : N)
  | write (file : Path N)
deriving Repr

namespace FileTree

variable [DecidableEq N]

/-- Create an entry stamped now, and stamp the directory that receives it.  It
    fails where the directory is missing or the name is taken. -/
def create (t : StampedTree N) (clock : Time) (dir : Path N) (name : N)
    (e : Entry Time Time) : Option (StampedTree N) :=
  if h : t.isDirectory dir = true ∧ t.entry (dir ++ [name]) = none then
    some ((t.insert dir name e h.1 h.2).setDirData dir clock)
  else none

/-- Run one event at the given time; `none` when the system call fails. -/
def apply (t : StampedTree N) (clock : Time) : Event N → Option (StampedTree N)
  | .createFile dir name => t.create clock dir name (.leaf clock)
  | .createDir dir name => t.create clock dir name (.dir clock)
  | .delete dir name =>
      -- `unlink` and `rmdir`: a directory must be empty
      if (t.entry (dir ++ [name])).isSome ∧ t.childNames (dir ++ [name]) = ∅ then
        some (t.removeTree clock (dir ++ [name]))
      else none
  | .write file =>
      match t.entry file with
      | some (.leaf _) => some (t.setLeafData file clock)
      | _ => none

def run (t : StampedTree N) : List (Time × Event N) → Option (StampedTree N)
  | [] => some t
  | (clock, event) :: history => (t.apply clock event).bind (·.run history)

end FileTree

variable [DecidableEq N]

def Event.written : Event N → Option (Path N)
  | .createFile dir name => some (dir ++ [name])
  | .write file => some file
  | .createDir _ _ | .delete _ _ => none

/-- The stamp of the entry at `p` after an event, given its stamp before it;
    `none` stands for an entry that does not exist. -/
def Event.stampAfter (p : Path N) (clock : Time) (before : Option Time) : Event N → Option Time
  | .createFile dir name | .createDir dir name =>
      if p = dir ∨ p = dir ++ [name] then some clock else before
  | .delete dir name =>
      if p = dir then some clock else if p = dir ++ [name] then none else before
  | .write file => if p = file then some clock else before

/-- The last stamp a history leaves on `p`, given the stamp it started with. -/
def lastStamp (p : Path N) (start : Option Time) (history : List (Time × Event N)) : Option Time :=
  history.foldl (fun before step => step.2.stampAfter p step.1 before) start

/-! ### Modification times follow the history -/

theorem mtime_create {t t' : StampedTree N} {clock : Time} {dir : Path N} {name : N}
    {e : Entry Time Time} (he : e.mtime = clock) (h : t.create clock dir name e = some t')
    (p : Path N) :
    t'.mtime p = if p = dir ∨ p = dir ++ [name] then some clock else t.mtime p := by
  unfold FileTree.create at h
  split at h
  · rename_i hguard
    obtain rfl := Option.some.inj h
    have hne : dir ≠ dir ++ [name] := by simp
    rcases (t.isDirectory_iff dir).mp hguard.1 with ⟨d, hd⟩
    rw [FileTree.mtime, FileTree.entry_setDirData, FileTree.entry_insert]
    by_cases hpd : p = dir
    · subst hpd
      simp [hd, Entry.withDirData, Entry.mtime]
    · by_cases hpn : p = dir ++ [name]
      · simp [hpn, he]
      · simp [hpd, hpn, FileTree.mtime]
  · cases h

theorem mtime_delete {t : StampedTree N} {clock : Time} {dir : Path N} {name : N}
    (hsome : (t.entry (dir ++ [name])).isSome) (hempty : t.childNames (dir ++ [name]) = ∅)
    (p : Path N) :
    (t.removeTree clock (dir ++ [name])).mtime p =
      if p = dir then some clock else if p = dir ++ [name] then none else t.mtime p := by
  rcases t.parent_dir dir name hsome with ⟨d, hd⟩
  rw [FileTree.mtime, FileTree.entry_removeTree _ _ _ _ (by simp)]
  by_cases hpre : dir ++ [name] <+: p
  · have hpd : p ≠ dir := by
      rintro rfl
      exact not_child_prefix_self p name hpre
    rw [if_pos hpre, if_neg hpd]
    rcases prefix_eq_or_child hpre with rfl | ⟨n, hn⟩
    · simp
    · -- an empty directory has nothing below it
      have hchild : t.entry (dir ++ [name] ++ [n]) = none := by
        have : n ∉ t.childNames (dir ++ [name]) := by simp [hempty]
        simpa [t.mem_childNames] using this
      have hnone := t.none_of_prefix hn hchild
      simp [FileTree.mtime, hnone]
  · have hpn : p ≠ dir ++ [name] := by
      rintro rfl
      exact hpre List.prefix_rfl
    rw [if_neg hpre, if_neg hpn]
    by_cases hpd : p = dir
    · subst hpd
      rw [if_pos ⟨by simp, hsome⟩, hd]
      simp [Entry.withDirData, Entry.mtime]
    · rw [if_neg (by simp [hpd]), if_neg hpd]
      rfl

theorem mtime_write {t : StampedTree N} {file : Path N} {m clock : Time}
    (h : t.entry file = some (.leaf m)) (p : Path N) :
    (t.setLeafData file clock).mtime p = if p = file then some clock else t.mtime p := by
  rw [FileTree.mtime, FileTree.entry_setLeafData]
  by_cases hp : p = file
  · subst hp
    simp [h, Entry.withLeafData, Entry.mtime]
  · simp [hp, FileTree.mtime]

theorem mtime_apply {t t' : StampedTree N} {clock : Time} {event : Event N}
    (h : t.apply clock event = some t') (p : Path N) :
    t'.mtime p = event.stampAfter p clock (t.mtime p) := by
  cases event with
  | createFile dir name => exact mtime_create rfl h p
  | createDir dir name => exact mtime_create rfl h p
  | delete dir name =>
    simp only [FileTree.apply] at h
    split at h
    · rename_i hguard
      obtain rfl := Option.some.inj h
      exact mtime_delete hguard.1 hguard.2 p
    · cases h
  | write file =>
    simp only [FileTree.apply] at h
    split at h
    · rename_i m hleaf
      obtain rfl := Option.some.inj h
      exact mtime_write hleaf p
    · cases h

/-- **Modification times are last stamps.**  After a history, every entry carries
    the time of the last event that stamped it. -/
theorem mtime_run {t t' : StampedTree N} {history : List (Time × Event N)}
    (h : t.run history = some t') (p : Path N) :
    t'.mtime p = lastStamp p (t.mtime p) history := by
  induction history generalizing t with
  | nil =>
    obtain rfl := Option.some.inj h
    rfl
  | cons step history ih =>
    obtain ⟨clock, event⟩ := step
    rw [FileTree.run, Option.bind_eq_some_iff] at h
    rcases h with ⟨t₁, h₁, hrest⟩
    rw [ih hrest, mtime_apply h₁]
    rfl

/-! ### Chronological histories -/

theorem Event.stampAfter_cases (event : Event N) (p : Path N) (clock : Time)
    (before : Option Time) :
    event.stampAfter p clock before = some clock ∨ event.stampAfter p clock before = none ∨
      event.stampAfter p clock before = before := by
  cases event with
  | createFile dir name | createDir dir name | write file =>
    simp only [Event.stampAfter]
    split
    · exact Or.inl rfl
    · exact Or.inr (Or.inr rfl)
  | delete dir name =>
    simp only [Event.stampAfter]
    split
    · exact Or.inl rfl
    · split
      · exact Or.inr (Or.inl rfl)
      · exact Or.inr (Or.inr rfl)

theorem lastStamp_ge {p : Path N} {bound : Time} {history : List (Time × Event N)}
    (hbound : ∀ step ∈ history, bound ≤ step.1) {start : Option Time}
    (hstart : ∀ m, start = some m → bound ≤ m) :
    ∀ m, lastStamp p start history = some m → bound ≤ m := by
  induction history generalizing start with
  | nil => exact hstart
  | cons step history ih =>
    apply ih (fun later hlater => hbound later (List.mem_cons_of_mem _ hlater))
    intro m hm
    simp only at hm
    rcases step.2.stampAfter_cases p step.1 start with h | h | h
    · rw [h] at hm
      exact Option.some.inj hm ▸ hbound step List.mem_cons_self
    · rw [h] at hm
      cases hm
    · exact hstart m (h ▸ hm)

theorem lastStamp_ge_of_mem {p : Path N} {history : List (Time × Event N)}
    (hchron : history.Pairwise fun earlier later => earlier.1 ≤ later.1)
    {step : Time × Event N} (hstep : step ∈ history)
    (hstamps : ∀ before, step.2.stampAfter p step.1 before = some step.1)
    {start : Option Time} {m : Time} (hm : lastStamp p start history = some m) :
    step.1 ≤ m := by
  rcases List.append_of_mem hstep with ⟨earlier, later, rfl⟩
  have hlater := (List.pairwise_cons.mp (List.pairwise_append.mp hchron).2.1).1
  rw [lastStamp, List.foldl_append, List.foldl_cons, hstamps] at hm
  refine lastStamp_ge hlater ?_ m hm
  intro m' hm'
  exact (Option.some.inj hm').le

end FileTrees
