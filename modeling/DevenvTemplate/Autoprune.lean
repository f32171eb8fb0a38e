import DevenvTemplate.FileName
import DevenvTemplate.FindRun
import DevenvTemplate.FindCompletion
import Mathlib.Tactic.Tauto

/-!
# The disk autoprune of `enterShell`

`devenv/lang/rust.nix` runs two cleanups on every shell entry:

    if [ -d target ]; then
      find target/debug/incremental target/debug/build -mindepth 1 -maxdepth 1 \
        -type d -mtime +5 -exec rm -rf {} + 2>/dev/null || true
    fi
    find . -maxdepth 4 \( -name .git -o -name .jj -o -name .devenv -o -name node_modules \) \
      -prune -o -type d -name target -mtime +30 -prune -exec rm -rf {} + 2>/dev/null || true

`sweepStale` and `sweepTargets` are the two command lines.  Each `find` has its
own start time.  The second one runs on the tree the first has left behind, and
`autoprune_entry_eq_none_iff` says what is missing afterwards in terms of the tree before
either of them ran.
-/

namespace DevenvTemplate.EnterShell

open FileTrees FindUtility

/-! ### The script -/

def target : FileName := ⟨"target", by decide⟩
def debug : FileName := ⟨"debug", by decide⟩
def incremental : FileName := ⟨"incremental", by decide⟩
def build : FileName := ⟨"build", by decide⟩
def dotGit : FileName := ⟨".git", by decide⟩
def dotJj : FileName := ⟨".jj", by decide⟩
def dotDevenv : FileName := ⟨".devenv", by decide⟩
def nodeModules : FileName := ⟨"node_modules", by decide⟩

def sweepStale : FindCommand FileName where
  startingPoints := [[target, debug, incremental], [target, debug, build]]
  mindepth := 1
  maxdepth := 1
  expression := .and (.and .typeDir (.mtimeOver 5)) .execRm

def sweepTargets : FindCommand FileName where
  startingPoints := [[]]
  maxdepth := 4
  expression :=
    .or
      (.and
        (.or (.or (.or (.name dotGit) (.name dotJj)) (.name dotDevenv)) (.name nodeModules))
        .prune)
      (.and (.and (.and (.and .typeDir (.name target)) (.mtimeOver 30)) .prune) .execRm)

/-- The autoprune, with the start times of its two `find` commands.  Their exit
    status is ignored (`|| true`). -/
inductive Autoprune (now₁ now₂ : Time) : StampedTree FileName → StampedTree FileName → Prop where
  | withTarget {t t₁ t₂} (hif : t.isDirectory [target] = true)
      (h₁ : FindRun sweepStale now₁ t t₁) (h₂ : FindRun sweepTargets now₂ t₁ t₂) :
      Autoprune now₁ now₂ t t₂
  | withoutTarget {t t'} (hif : t.isDirectory [target] = false)
      (h₂ : FindRun sweepTargets now₂ t t') : Autoprune now₁ now₂ t t'

theorem exists_autoprune (now₁ now₂ : Time) (t : StampedTree FileName) :
    ∃ t', Autoprune now₁ now₂ t t' := by
  cases hif : t.isDirectory [target] with
  | true =>
    rcases exists_findRun sweepStale now₁ t with ⟨t₁, h₁⟩
    rcases exists_findRun sweepTargets now₂ t₁ with ⟨t₂, h₂⟩
    exact ⟨t₂, .withTarget hif h₁ h₂⟩
  | false =>
    obtain ⟨t', h₂⟩ := exists_findRun sweepTargets now₂ t
    exact ⟨t', .withoutTarget hif h₂⟩

/-! ### What the sweeps are for -/

def OlderThan (t : StampedTree FileName) (now : Time) (days : Int) (p : Path FileName) : Prop :=
  ∃ m, t.entry p = some (.dir m) ∧ days < ageDays now m

def InBuildCache (p : Path FileName) : Prop :=
  ∃ n, p = [target, debug, incremental, n] ∨ p = [target, debug, build, n]

def protectedNames : List FileName := [dotGit, dotJj, dotDevenv, nodeModules]

/-- A path of one to four names that ends in `target` and has no protected name
    above it. -/
def InTargetPosition (p : Path FileName) : Prop :=
  ∃ dirs : Path FileName, p = dirs ++ [target] ∧ dirs.length ≤ 3 ∧ ∀ n ∈ dirs, n ∉ protectedNames

def StaleBuildDir (now : Time) (t : StampedTree FileName) (p : Path FileName) : Prop :=
  InBuildCache p ∧ OlderThan t now 5 p

def StaleTargetDir (now : Time) (t : StampedTree FileName) (p : Path FileName) : Prop :=
  InTargetPosition p ∧ OlderThan t now 30 p

/-! ### The first sweep -/

theorem sweepStale_effect (now : Time) (level : Nat) (p : Path FileName) (e : Entry Time Time) :
    sweepStale.effect now level p e =
      { queued := decide (1 ≤ level) && e.isDir && decide (5 < ageDays now e.mtime) } := by
  have hmin : sweepStale.mindepth = 1 := rfl
  unfold FindCommand.effect
  rw [hmin]
  by_cases hlevel : level < 1
  · rw [if_pos hlevel, decide_eq_false (by omega : ¬ 1 ≤ level)]
    rfl
  · rw [if_neg hlevel, decide_eq_true (by omega : 1 ≤ level)]
    cases hdir : e.isDir with
    | false => simp [sweepStale, FindExpr.eval, hdir]
    | true =>
      by_cases hage : 5 < ageDays now e.mtime
      · simp [sweepStale, FindExpr.eval, hdir, hage]
      · simp [sweepStale, FindExpr.eval, hdir, hage]

theorem sweepStale_queues (now : Time) (level : Nat) (p : Path FileName) (e : Entry Time Time) :
    sweepStale.queues now level p e = true ↔
      1 ≤ level ∧ e.isDir = true ∧ 5 < ageDays now e.mtime := by
  rw [FindCommand.queues, sweepStale_effect]
  simp [and_assoc]

theorem sweepStale_descends (now : Time) (level : Nat) (p : Path FileName)
    (e : Entry Time Time) :
    sweepStale.descends now level p e = true ↔ e.isDir = true ∧ level = 0 := by
  rw [FindCommand.descends, sweepStale_effect]
  simp [sweepStale]

theorem sweepStale_sweeping : sweepStale.Sweeping where
  apart := by
    simp only [sweepStale, List.pairwise_cons, List.mem_singleton, List.not_mem_nil]
    refine ⟨?_, by simp⟩
    rintro q rfl
    exact ⟨by decide, by decide⟩
  queued_not_entered := by
    intro now level p e hqueue
    have hlevel := ((sweepStale_queues now level p e).mp hqueue).1
    by_contra hdesc
    have hzero := ((sweepStale_descends now level p e).mp (by simpa using hdesc)).2
    omega
  root_not_queued := by
    intro now e
    by_contra hqueue
    have hlevel := ((sweepStale_queues now 0 [] e).mp (by simpa using hqueue)).1
    omega

theorem olderThan_of_isDir {t : StampedTree FileName} {now : Time} {days : Int}
    {p : Path FileName} {e : Entry Time Time} (he : t.entry p = some e) (hdir : e.isDir = true)
    (hage : days < ageDays now e.mtime) : OlderThan t now days p := by
  rcases Entry.isDir_iff.mp hdir with ⟨m, rfl⟩
  exact ⟨m, he, hage⟩

theorem sweepStale_selected_of_start {now : Time} {t : StampedTree FileName}
    {s p : Path FileName} (hs : s ∈ sweepStale.startingPoints)
    (h : (∃ n, p = s ++ [n]) ∧ OlderThan t now 5 p) : Selected sweepStale now t p := by
  rcases h with ⟨⟨n, rfl⟩, m, hm, hage⟩
  obtain ⟨d, hd⟩ := t.parent_dir s n (by simp [hm])
  have hreach : Reached sweepStale now t s (s ++ [n]) := by
    refine reached_child (reached_self sweepStale now t s) hd ?_ n
    rw [Nat.sub_self]
    exact (sweepStale_descends now 0 s _).mpr ⟨rfl, rfl⟩
  refine ⟨s, hs, hreach, _, hm, (sweepStale_queues _ _ _ _).mpr ⟨?_, rfl, hage⟩⟩
  simp

theorem sweepStale_selected (now : Time) (t : StampedTree FileName) (p : Path FileName) :
    Selected sweepStale now t p ↔ StaleBuildDir now t p := by
  constructor
  · intro h
    rcases h with ⟨s, hs, hreach, e, he, hqueue⟩
    rcases (sweepStale_queues _ _ _ _).mp hqueue with ⟨hlevel, hdir, hage⟩
    have hold := olderThan_of_isDir he hdir hage
    -- `p` is one name below its starting point: anything between would not be entered
    obtain ⟨n, hn⟩ : ∃ n, s ++ [n] <+: p := by
      rcases prefix_eq_or_child hreach.1 with rfl | hchild
      · simp at hlevel
      · exact hchild
    have hp : s ++ [n] = p := by
      by_contra hne
      rcases t.dir_of_proper_prefix hn hne (by simp [he]) with ⟨d, hd⟩
      have hdesc := hreach.2 _ _ (List.prefix_append s [n]) hn hne hd
      have hzero := ((sweepStale_descends _ _ _ _).mp hdesc).2
      simp at hzero
    refine ⟨⟨n, ?_⟩, hold⟩
    simp only [sweepStale, List.mem_cons, List.not_mem_nil, or_false] at hs
    rcases hs with rfl | rfl
    · exact Or.inl hp.symm
    · exact Or.inr hp.symm
  · intro h
    obtain ⟨⟨n, hp⟩, hold⟩ := h
    rcases hp with rfl | rfl
    · exact sweepStale_selected_of_start List.mem_cons_self ⟨⟨n, rfl⟩, hold⟩
    · exact sweepStale_selected_of_start (List.mem_cons_of_mem _ List.mem_cons_self)
        ⟨⟨n, rfl⟩, hold⟩

/-! ### The second sweep -/

/-- Whether the parenthesised `-name` tests accept a base name. -/
def isProtected (base : Option FileName) : Bool :=
  decide (∃ n ∈ protectedNames, base = some n)

theorem eval_protectedNames (now : Time) (base : Option FileName) (e : Entry Time Time)
    (fx : Effect) :
    FindExpr.eval now base e
      (.or (.or (.or (.name dotGit) (.name dotJj)) (.name dotDevenv)) (.name nodeModules)) fx =
        (isProtected base, fx) := by
  have hany : isProtected base = (decide (base = some dotGit) || (decide (base = some dotJj) ||
      (decide (base = some dotDevenv) || decide (base = some nodeModules)))) := by
    simp [isProtected, protectedNames]
  rw [hany]
  by_cases hgit : base = some dotGit
  · simp [hgit]
  · by_cases hjj : base = some dotJj
    · simp [hjj]
    · by_cases hdevenv : base = some dotDevenv
      · subst hdevenv
        simp [hgit, hjj]
      · simp [hgit, hjj, hdevenv]

theorem isProtected_target : isProtected (some target) = false := by decide

theorem sweepTargets_effect (now : Time) (level : Nat) (p : Path FileName)
    (e : Entry Time Time) :
    sweepTargets.effect now level p e =
      if isProtected p.getLast? then { pruned := true }
      else if e.isDir = true ∧ p.getLast? = some target ∧ 30 < ageDays now e.mtime then
        { pruned := true, queued := true }
      else {} := by
  have hmin : sweepTargets.mindepth = 0 := rfl
  unfold FindCommand.effect
  rw [hmin, if_neg (Nat.not_lt_zero level), sweepTargets, eval_or, eval_and,
    eval_protectedNames]
  by_cases hprot : isProtected p.getLast? = true
  · simp [hprot]
  · by_cases hdir : e.isDir = true
    · by_cases hname : p.getLast? = some target
      · by_cases hage : 30 < ageDays now e.mtime
        · simp [isProtected_target, hdir, hname, hage]
        · simp [isProtected_target, hdir, hname, hage]
      · simp [hprot, hdir, hname]
    · simp [hprot, hdir]

theorem sweepTargets_queues (now : Time) (level : Nat) (p : Path FileName)
    (e : Entry Time Time) :
    sweepTargets.queues now level p e = true ↔
      e.isDir = true ∧ p.getLast? = some target ∧ 30 < ageDays now e.mtime := by
  rw [FindCommand.queues, sweepTargets_effect]
  by_cases hqueue : e.isDir = true ∧ p.getLast? = some target ∧ 30 < ageDays now e.mtime
  · simp [hqueue, isProtected_target]
  · by_cases hprot : isProtected p.getLast? = true
    · simp [hprot, hqueue]
    · simp [hprot, hqueue]

theorem sweepTargets_descends (now : Time) (level : Nat) (p : Path FileName)
    (e : Entry Time Time) :
    sweepTargets.descends now level p e = true ↔
      e.isDir = true ∧ level < 4 ∧ isProtected p.getLast? = false ∧
        ¬ (p.getLast? = some target ∧ 30 < ageDays now e.mtime) := by
  have hmax : sweepTargets.maxdepth = 4 := rfl
  rw [FindCommand.descends, sweepTargets_effect, hmax]
  cases hdir : e.isDir with
  | false => simp
  | true =>
    by_cases hprot : isProtected p.getLast? = true
    · simp [hprot]
    · by_cases hold : p.getLast? = some target ∧ 30 < ageDays now e.mtime
      · simp [hold, isProtected_target]
      · simp [hprot, hold]

theorem sweepTargets_sweeping : sweepTargets.Sweeping where
  apart := List.pairwise_singleton _ _
  queued_not_entered := by
    intro now level p e hqueue
    have hold := ((sweepTargets_queues now level p e).mp hqueue).2
    by_contra hdesc
    exact ((sweepTargets_descends now level p e).mp (by simpa using hdesc)).2.2.2 hold
  root_not_queued := by
    intro now e
    by_contra hqueue
    have hname := ((sweepTargets_queues now 0 [] e).mp (by simpa using hqueue)).2.1
    simp at hname

theorem isProtected_eq_false_iff (n : FileName) :
    isProtected (some n) = false ↔ n ∉ protectedNames := by
  simp [isProtected]

theorem staleTargetDir_of_selected {now : Time} {t : StampedTree FileName}
    {p : Path FileName} (h : Selected sweepTargets now t p) : StaleTargetDir now t p := by
  rcases h with ⟨s, hs, hreach, e, he, hqueue⟩
  rcases (sweepTargets_queues _ _ _ _).mp hqueue with ⟨hdir, hname, hage⟩
  obtain rfl : s = [] := by simpa [sweepTargets] using hs
  have hp : p.dropLast ++ [target] = p := List.dropLast_append_getLast? target hname
  -- every directory above `p` was entered
  have hentered : ∀ q, q <+: p.dropLast → q.length < 4 ∧ isProtected q.getLast? = false := by
    intro q hq
    have hqp : q <+: p := hq.trans (List.dropLast_prefix p)
    have hne : q ≠ p := by
      intro heq
      rw [heq, ← hp, List.dropLast_concat] at hq
      exact not_child_prefix_self _ _ hq
    obtain ⟨d, hd⟩ := t.dir_of_proper_prefix hqp hne (by simp [he])
    have hdesc := (sweepTargets_descends _ _ _ _).mp
      (hreach.2 q _ List.nil_prefix hqp hne hd)
    exact ⟨by simpa using hdesc.2.1, hdesc.2.2.1⟩
  refine ⟨⟨p.dropLast, hp.symm, ?_, ?_⟩, olderThan_of_isDir he hdir hage⟩
  · have hlen := (hentered p.dropLast List.prefix_rfl).1
    omega
  · intro n hn
    rcases List.append_of_mem hn with ⟨above, below, hsplit⟩
    have hprot := (hentered (above ++ [n]) ⟨below, by simp [hsplit]⟩).2
    rw [List.getLast?_concat] at hprot
    exact (isProtected_eq_false_iff n).mp hprot

/-- A stale `target` directory with no other one above it is selected. -/
theorem selected_of_topmost {now : Time} {t : StampedTree FileName} {p : Path FileName}
    (h : StaleTargetDir now t p)
    (htop : ∀ q, q <+: p → q ≠ p → ¬ StaleTargetDir now t q) : Selected sweepTargets now t p := by
  rcases h with ⟨⟨dirs, rfl, hlen, hnames⟩, m, hm, hage⟩
  refine ⟨[], by simp [sweepTargets], ⟨List.nil_prefix, ?_⟩, _, hm, ?_⟩
  · intro q e _ hqp hne hq
    obtain ⟨d, hd⟩ := t.dir_of_proper_prefix hqp hne (by simp [hm])
    have hqdirs : q <+: dirs := by
      rcases List.prefix_concat_iff.mp hqp with heq | hle
      · exact absurd heq hne
      · exact hle
    rw [hd] at hq
    obtain rfl := Option.some.inj hq
    rw [sweepTargets_descends]
    have hqlen := hqdirs.length_le
    refine ⟨rfl, by simp; omega, ?_, ?_⟩
    · cases hlast : q.getLast? with
      | none => rfl
      | some n =>
        rw [isProtected_eq_false_iff]
        exact hnames n (hqdirs.subset (List.mem_of_getLast? hlast))
    · -- otherwise `q` would be a stale `target` directory above `p`
      intro hold
      have hqeq : q.dropLast ++ [target] = q := List.dropLast_append_getLast? target hold.1
      refine htop q hqp hne ⟨⟨q.dropLast, hqeq.symm, ?_, ?_⟩, d, hd, hold.2⟩
      · rw [List.length_dropLast]
        omega
      · intro n hn
        exact hnames n (hqdirs.subset (List.dropLast_subset q hn))
  · rw [sweepTargets_queues]
    exact ⟨rfl, List.getLast?_concat, hage⟩

/-- At or above a stale `target` directory the sweep always selects something: the
    topmost one. -/
theorem exists_selected_above {now : Time} {t : StampedTree FileName} {p : Path FileName}
    (h : StaleTargetDir now t p) : ∃ q, q <+: p ∧ Selected sweepTargets now t q := by
  induction hlen : p.length using Nat.strong_induction_on generalizing p with
  | _ k ih =>
    by_cases htop : ∀ q, q <+: p → q ≠ p → ¬ StaleTargetDir now t q
    · exact ⟨p, List.prefix_rfl, selected_of_topmost h htop⟩
    · push Not at htop
      rcases htop with ⟨q, hqp, hne, hstale⟩
      have hlt : q.length < k := by
        have hle := hqp.length_le
        by_contra hge
        exact hne (hqp.eq_of_length (by omega))
      rcases ih q.length hlt hstale rfl with ⟨r, hrq, hr⟩
      exact ⟨r, hrq.trans hqp, hr⟩

theorem sweepTargets_covers (now : Time) (t : StampedTree FileName) (q : Path FileName) :
    (∃ p, Selected sweepTargets now t p ∧ p <+: q) ↔ ∃ p, StaleTargetDir now t p ∧ p <+: q := by
  constructor
  · intro h
    rcases h with ⟨p, hp, hle⟩
    exact ⟨p, staleTargetDir_of_selected hp, hle⟩
  · intro h
    obtain ⟨p, hp, hle⟩ := h
    rcases exists_selected_above hp with ⟨r, hrp, hr⟩
    exact ⟨r, hr, hrp.trans hle⟩

/-! ### Both sweeps -/

/-- Removing build-cache directories stamps no `target` directory: the two
    directories it stamps have other names. -/
theorem not_parent_of_buildCache {p : Path FileName} (hp : InTargetPosition p)
    {g : Path FileName} (hg : InBuildCache g) : p ≠ g.dropLast := by
  rcases hp with ⟨dirs, rfl, _⟩
  rcases hg with ⟨n, hg⟩
  intro heq
  have hname : g.dropLast.getLast? = some incremental ∨ g.dropLast.getLast? = some build := by
    rcases hg with rfl | rfl
    · exact Or.inl rfl
    · exact Or.inr rfl
  rw [← heq, List.getLast?_concat] at hname
  exact absurd hname (by decide)

theorem entry_eq_after_first {now : Time} {t t₁ : StampedTree FileName}
    (h : Swept now t t₁ {g | StaleBuildDir now t g}) {p : Path FileName}
    (hp : InTargetPosition p) (hkept : ¬ ∃ g, StaleBuildDir now t g ∧ g <+: p) :
    t₁.entry p = t.entry p := by
  rcases h.kept p hkept with heq | ⟨hparent, -⟩
  · exact heq
  · rcases hparent with ⟨g, hg, hpg⟩
    exact absurd hpg (not_parent_of_buildCache hp hg.1)

theorem staleTargetDir_after_first {now₁ : Time} {t t₁ : StampedTree FileName}
    (h : Swept now₁ t t₁ {g | StaleBuildDir now₁ t g}) (now₂ : Time) (p : Path FileName) :
    StaleTargetDir now₂ t₁ p ↔
      StaleTargetDir now₂ t p ∧ ¬ ∃ g, StaleBuildDir now₁ t g ∧ g <+: p := by
  constructor
  · intro hstale
    rcases hstale with ⟨hpos, m, hm, hage⟩
    have hkept : ¬ ∃ g, StaleBuildDir now₁ t g ∧ g <+: p := by
      intro hgone
      rw [h.removed p hgone] at hm
      cases hm
    refine ⟨⟨hpos, m, ?_, hage⟩, hkept⟩
    rw [← entry_eq_after_first h hpos hkept, hm]
  · intro hstale
    obtain ⟨⟨hpos, m, hm, hage⟩, hkept⟩ := hstale
    refine ⟨hpos, m, ?_, hage⟩
    rw [entry_eq_after_first h hpos hkept, hm]

theorem not_staleBuildDir_of_no_target {t : StampedTree FileName}
    (hif : t.isDirectory [target] = false) (now : Time) (g : Path FileName) :
    ¬ StaleBuildDir now t g := by
  intro h
  rcases h with ⟨⟨n, hg⟩, m, hm, _⟩
  have htarget : [target] <+: g ∧ [target] ≠ g := by
    rcases hg with rfl | rfl
    · exact ⟨⟨_, rfl⟩, by simp⟩
    · exact ⟨⟨_, rfl⟩, by simp⟩
  have hdir := t.dir_of_proper_prefix htarget.1 htarget.2 (by simp [hm])
  rw [← t.isDirectory_iff, hif] at hdir
  cases hdir

theorem autoprune_stages {now₁ now₂ : Time} {t t' : StampedTree FileName}
    (h : Autoprune now₁ now₂ t t') :
    ∃ t₁, Swept now₁ t t₁ {g | StaleBuildDir now₁ t g} ∧
      Swept now₂ t₁ t' {g | Selected sweepTargets now₂ t₁ g} := by
  cases h with
  | withTarget hif h₁ h₂ =>
    refine ⟨_, ?_, findRun_swept sweepTargets_sweeping h₂⟩
    have hfirst := findRun_swept sweepStale_sweeping h₁
    simpa only [sweepStale_selected] using hfirst
  | withoutTarget hif h₂ =>
    refine ⟨t, ?_, findRun_swept sweepTargets_sweeping h₂⟩
    have hnone : {g | StaleBuildDir now₁ t g} = ∅ :=
      Set.eq_empty_of_forall_notMem (not_staleBuildDir_of_no_target hif now₁)
    exact hnone ▸ Swept.refl now₁ t

/-- What the autoprune removes: a directory either sweep is for, judged by the
    stamps from before both. -/
def Prunable (now₁ now₂ : Time) (t : StampedTree FileName) (p : Path FileName) : Prop :=
  StaleBuildDir now₁ t p ∨ StaleTargetDir now₂ t p

theorem autoprune_entry_eq_none_iff {now₁ now₂ : Time} {t t' : StampedTree FileName}
    (h : Autoprune now₁ now₂ t t') (q : Path FileName) :
    t'.entry q = none ↔ t.entry q = none ∨ ∃ p, p <+: q ∧ Prunable now₁ now₂ t p := by
  rcases autoprune_stages h with ⟨t₁, hfirst, hsecond⟩
  have hcovers := sweepTargets_covers now₂ t₁ q
  rw [hsecond.entry_eq_none_iff, hfirst.entry_eq_none_iff]
  constructor
  · intro hgone
    rcases hgone with (hnone | ⟨g, hg, hle⟩) | ⟨p, hp, hle⟩
    · exact Or.inl hnone
    · exact Or.inr ⟨g, hle, Or.inl hg⟩
    · have hstale := (staleTargetDir_after_first hfirst now₂ p).mp (staleTargetDir_of_selected hp)
      exact Or.inr ⟨p, hle, Or.inr hstale.1⟩
  · intro hgone
    rcases hgone with hnone | ⟨p, hle, hp | hp⟩
    · exact Or.inl (Or.inl hnone)
    · exact Or.inl (Or.inr ⟨p, hp, hle⟩)
    · -- a stale `target` directory is still there for the second sweep, or went in the first
      by_cases hbuild : ∃ g, StaleBuildDir now₁ t g ∧ g <+: p
      · rcases hbuild with ⟨g, hg, hgp⟩
        exact Or.inl (Or.inr ⟨g, hg, hgp.trans hle⟩)
      · have hstale := (staleTargetDir_after_first hfirst now₂ p).mpr ⟨hp, hbuild⟩
        exact Or.inr (hcovers.mpr ⟨p, hstale, hle⟩)

/-- What survives is unchanged, except that a directory that held something
    removed is stamped during the autoprune. -/
theorem autoprune_kept {now₁ now₂ : Time} {t t' : StampedTree FileName}
    (h : Autoprune now₁ now₂ t t') {q : Path FileName} (hq : t'.entry q ≠ none) :
    t'.entry q = t.entry q ∨
      (∃ p, Prunable now₁ now₂ t p ∧ q = p.dropLast) ∧
        ∃ m m', (now₁ ≤ m' ∨ now₂ ≤ m') ∧
          t.entry q = some (.dir m) ∧ t'.entry q = some (.dir m') := by
  obtain ⟨t₁, hfirst, hsecond⟩ := autoprune_stages h
  have hkept₂ : ¬ ∃ g ∈ {g | Selected sweepTargets now₂ t₁ g}, g <+: q :=
    fun hgone => hq (hsecond.removed q hgone)
  have hkept₁ : ¬ ∃ g ∈ {g | StaleBuildDir now₁ t g}, g <+: q := by
    intro hgone
    exact hq ((hsecond.entry_eq_none_iff q).mpr (Or.inl (hfirst.removed q hgone)))
  rcases hsecond.kept q hkept₂ with heq₂ | ⟨⟨g, hg, hqg⟩, m, m', hm', hm, hnew⟩
  · rw [heq₂]
    rcases hfirst.kept q hkept₁ with heq₁ | ⟨⟨g, hg, hqg⟩, m, m', hm', hm, hnew⟩
    · exact Or.inl heq₁
    · exact Or.inr ⟨⟨g, Or.inl hg, hqg⟩, m, m', Or.inl hm', hm, hnew⟩
  · have hstale := (staleTargetDir_after_first hfirst now₂ g).mp (staleTargetDir_of_selected hg)
    refine Or.inr ⟨⟨g, Or.inr hstale.1, hqg⟩, ?_⟩
    rcases hfirst.kept q hkept₁ with heq₁ | ⟨-, m₀, _, _, hm₀, _⟩
    · exact ⟨m, m', Or.inr hm', heq₁ ▸ hm, hnew⟩
    · exact ⟨m₀, m', Or.inr hm', hm₀, hnew⟩

/-! ### Entering the shell again -/

/-- A directory stamped during the autoprune is too young for either sweep. -/
theorem not_prunable_of_stamped {now₁ now₂ m' : Time} {t : StampedTree FileName}
    {p : Path FileName} (hgap : ageDays now₂ now₁ ≤ 30) (hm' : now₁ ≤ m')
    (hp : t.entry p = some (.dir m')) : ¬ Prunable now₁ now₂ t p := by
  intro hprunable
  rcases hprunable with ⟨-, m, hm, hage⟩ | ⟨-, m, hm, hage⟩
  · rw [hp] at hm
    cases hm
    have hzero : ageDays now₁ now₁ = 0 := by simp [ageDays]
    have hle : ageDays now₁ m' ≤ ageDays now₁ now₁ := ageDays_anti hm'
    omega
  · rw [hp] at hm
    cases hm
    have hle : ageDays now₂ m' ≤ ageDays now₂ now₁ := ageDays_anti hm'
    omega

/-- The autoprune leaves nothing that it would remove. -/
theorem not_prunable_after {now₁ now₂ : Time} {t t' : StampedTree FileName}
    (h : Autoprune now₁ now₂ t t') (hclock : now₁ ≤ now₂) (hgap : ageDays now₂ now₁ ≤ 30)
    (p : Path FileName) : ¬ Prunable now₁ now₂ t' p := by
  intro hprunable
  have hkept : t'.entry p ≠ none := by
    rcases hprunable with ⟨-, m, hm, -⟩ | ⟨-, m, hm, -⟩
    · simp [hm]
    · simp [hm]
  rcases autoprune_kept h hkept with heq | ⟨-, _, m', hm', -, hp⟩
  · have hbefore : Prunable now₁ now₂ t p := by
      simpa only [Prunable, StaleBuildDir, StaleTargetDir, OlderThan, heq] using hprunable
    exact hkept ((autoprune_entry_eq_none_iff h p).mpr (Or.inr ⟨p, List.prefix_rfl, hbefore⟩))
  · have hstamp : now₁ ≤ m' := by
      rcases hm' with hm' | hm'
      · exact hm'
      · exact hclock.trans hm'
    exact not_prunable_of_stamped hgap hstamp hp hprunable

/-- **A second autoprune changes nothing**, judged at the same times. -/
theorem autoprune_again {now₁ now₂ : Time} {t t' t'' : StampedTree FileName}
    (h : Autoprune now₁ now₂ t t') (h' : Autoprune now₁ now₂ t' t'') (hclock : now₁ ≤ now₂)
    (hgap : ageDays now₂ now₁ ≤ 30) (q : Path FileName) : t''.entry q = t'.entry q := by
  have hnone := autoprune_entry_eq_none_iff h' q
  by_cases hq : t''.entry q = none
  · rcases hnone.mp hq with habsent | ⟨p, -, hp⟩
    · rw [hq, habsent]
    · exact absurd hp (not_prunable_after h hclock hgap p)
  · rcases autoprune_kept h' hq with heq | ⟨⟨p, hp, -⟩, -⟩
    · exact heq
    · exact absurd hp (not_prunable_after h hclock hgap p)

/-! ### Confinement -/

/-- A path in target position has no protected directory above it and is not one. -/
theorem targetPosition_above_protected {p dirs q : Path FileName} {n : FileName}
    (hp : InTargetPosition p) (hn : n ∈ protectedNames) (hpq : p <+: q)
    (hle : dirs ++ [n] <+: q) : p <+: dirs := by
  rcases hp with ⟨above, rfl, _, hnames⟩
  rcases prefix_or_prefix hpq hle with h | h
  · rcases List.prefix_concat_iff.mp h with heq | hbelow
    · have hlast := List.singleton_inj.mp (List.append_inj' heq rfl).2
      subst hlast
      exact absurd hn (by decide)
    · exact hbelow
  · rcases List.prefix_concat_iff.mp h with heq | habove
    · have hlast := List.singleton_inj.mp (List.append_inj' heq rfl).2
      subst hlast
      exact absurd hn (by decide)
    · exact absurd hn (hnames n (habove.subset (by simp)))

/-- **The two sweeps are confined and complete.**  The autoprune always finishes.
    However its removals are batched, an initial entry is gone afterwards exactly
    when it lies at or below a prunable directory, nothing appears, and an entry
    of a protected directory goes only in the build cache or together with a
    stale `target` directory above the protected one. -/
theorem autoprune_removes_exactly (now₁ now₂ : Time) (t : StampedTree FileName) :
    (∃ t', Autoprune now₁ now₂ t t') ∧
    ∀ t', Autoprune now₁ now₂ t t' →
      (∀ q, (t.entry q).isSome →
        (t'.entry q = none ↔
          ∃ p, p <+: q ∧ (StaleBuildDir now₁ t p ∨ StaleTargetDir now₂ t p))) ∧
      (∀ q, t.entry q = none → t'.entry q = none) ∧
      ∀ dirs n q, n ∈ protectedNames → dirs ++ [n] <+: q → (t.entry q).isSome →
        t'.entry q = none →
        ∃ p, p <+: q ∧
          (StaleBuildDir now₁ t p ∨ StaleTargetDir now₂ t p ∧ p <+: dirs) := by
  refine ⟨exists_autoprune now₁ now₂ t, ?_⟩
  intro t' h
  have hgone : ∀ q, (t.entry q).isSome →
      (t'.entry q = none ↔ ∃ p, p <+: q ∧ Prunable now₁ now₂ t p) := by
    intro q hq
    rw [autoprune_entry_eq_none_iff h q]
    constructor
    · intro hor
      rcases hor with hnone | hex
      · simp [hnone] at hq
      · exact hex
    · exact Or.inr
  refine ⟨hgone, ?_, ?_⟩
  · intro q hq
    exact (autoprune_entry_eq_none_iff h q).mpr (Or.inl hq)
  · intro dirs n q hn hle hq hnone
    rcases (hgone q hq).mp hnone with ⟨p, hpq, hp⟩
    refine ⟨p, hpq, ?_⟩
    rcases hp with hbuild | hstale
    · exact Or.inl hbuild
    · exact Or.inr ⟨hstale, targetPosition_above_protected hstale.1 hn hpq hle⟩

end DevenvTemplate.EnterShell
