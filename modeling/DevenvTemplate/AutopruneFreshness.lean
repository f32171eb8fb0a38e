import DevenvTemplate.Autoprune

/-!
# Which fresh files the autoprune keeps

The comment over the autoprune promises that fresh caches survive.  Both sweeps
judge a directory by its own modification time, and that time follows the
directory's direct entries only: a file written in place, or created two levels
down, leaves it alone.  `keepsFresh_iff` says on which histories the promise
holds, in terms of the last stamps the history left, and
`rewritten_output_removed` is a history on which it does not.
-/

namespace DevenvTemplate.EnterShell

open FileTrees FindUtility

/-- `f` was written or created in the five days before `now`, by an event of the
    history or before it. -/
def WrittenLately (now : Time) (t₀ : StampedTree FileName)
    (history : List (Time × Event FileName)) (f : Path FileName) : Prop :=
  (∃ step ∈ history, step.2.written = some f ∧ now - 5 * day ≤ step.1 ∧ step.1 ≤ now) ∨
    ∃ m, t₀.mtime f = some m ∧ now - 5 * day ≤ m ∧ m ≤ now

/-- The directory `d` was created, or an entry was created or deleted directly in
    it, no more than `days` whole days before `now`. -/
def EntriesChangedWithin (now : Time) (days : Int) (t₀ : StampedTree FileName)
    (history : List (Time × Event FileName)) (d : Path FileName) : Prop :=
  ∃ m, lastStamp d (t₀.mtime d) history = some m ∧ ageDays now m ≤ days

def IsFile (t : StampedTree FileName) (p : Path FileName) : Prop :=
  ∃ m, t.entry p = some (.leaf m)

/-- No file written or created in the last five days is removed. -/
def KeepsFresh (now₁ now₂ : Time) (t₀ : StampedTree FileName)
    (history : List (Time × Event FileName)) (t : StampedTree FileName) : Prop :=
  ∀ t', Autoprune now₁ now₂ t t' →
    ∀ f, IsFile t f → WrittenLately now₁ t₀ history f → t'.entry f ≠ none

theorem prunable_proper {now₁ now₂ : Time} {t : StampedTree FileName} {d f : Path FileName}
    (hd : Prunable now₁ now₂ t d) (hf : IsFile t f) : d ≠ f := by
  rintro rfl
  obtain ⟨m, hm⟩ := hf
  rcases hd with ⟨-, m', hm', -⟩ | ⟨-, m', hm', -⟩
  · rw [hm] at hm'
    cases hm'
  · rw [hm] at hm'
    cases hm'

theorem olderThan_iff_lastStamp {t₀ t : StampedTree FileName}
    {history : List (Time × Event FileName)} (hrun : t₀.run history = some t)
    {now : Time} {days : Int} {d : Path FileName} (hd : ∃ m, t.entry d = some (.dir m)) :
    OlderThan t now days d ↔ ¬ EntriesChangedWithin now days t₀ history d := by
  rcases hd with ⟨m, hm⟩
  have hlast : lastStamp d (t₀.mtime d) history = some m := by
    rw [← mtime_run hrun d, FileTree.mtime, hm]
    rfl
  constructor
  · intro hold hrecent
    rcases hold with ⟨m', hm', hage⟩
    obtain ⟨m'', hm'', hage'⟩ := hrecent
    rw [hm] at hm'
    rw [hlast] at hm''
    cases hm'
    cases hm''
    omega
  · intro hold
    refine ⟨m, hm, ?_⟩
    by_contra hage
    exact hold ⟨m, hlast, not_lt.mp hage⟩

/-- **When fresh files survive.**  After any history, the autoprune keeps every
    file written or created in the five days before it exactly when each directory
    above such a file that a sweep looks at had a direct entry change recently:
    within five whole days in the build cache, within thirty in target position. -/
theorem keepsFresh_iff (now₁ now₂ : Time) {t₀ t : StampedTree FileName}
    {history : List (Time × Event FileName)} (hrun : t₀.run history = some t) :
    KeepsFresh now₁ now₂ t₀ history t ↔
      ∀ f, IsFile t f → WrittenLately now₁ t₀ history f → ∀ d, d <+: f → d ≠ f →
        (InBuildCache d → EntriesChangedWithin now₁ 5 t₀ history d) ∧
        (InTargetPosition d → EntriesChangedWithin now₂ 30 t₀ history d) := by
  constructor
  · intro hkeeps f hf hfresh d hdf hne
    rcases exists_autoprune now₁ now₂ t with ⟨t', h⟩
    have hkept := hkeeps t' h f hf hfresh
    rw [Ne, autoprune_entry_eq_none_iff h f, not_or] at hkept
    have hdir : ∃ m, t.entry d = some (.dir m) := by
      rcases hf with ⟨m, hm⟩
      exact t.dir_of_proper_prefix hdf hne (by simp [hm])
    constructor
    · intro hpos
      by_contra hold
      have hstale := (olderThan_iff_lastStamp hrun hdir).mpr hold
      exact hkept.2 ⟨d, hdf, Or.inl ⟨hpos, hstale⟩⟩
    · intro hpos
      by_contra hold
      have hstale := (olderThan_iff_lastStamp hrun hdir).mpr hold
      exact hkept.2 ⟨d, hdf, Or.inr ⟨hpos, hstale⟩⟩
  · intro hrecent t' h f hf hfresh hnone
    rcases (autoprune_entry_eq_none_iff h f).mp hnone with habsent | ⟨d, hdf, hd⟩
    · rcases hf with ⟨m, hm⟩
      rw [hm] at habsent
      cases habsent
    · have hchanged := hrecent f hf hfresh d hdf (prunable_proper hd hf)
      rcases hd with ⟨hpos, hold⟩ | ⟨hpos, hold⟩
      · have hdir : ∃ m, t.entry d = some (.dir m) := ⟨_, hold.choose_spec.1⟩
        exact (olderThan_iff_lastStamp hrun hdir).mp hold (hchanged.1 hpos)
      · have hdir : ∃ m, t.entry d = some (.dir m) := ⟨_, hold.choose_spec.1⟩
        exact (olderThan_iff_lastStamp hrun hdir).mp hold (hchanged.2 hpos)

/-- In a chronological history one recent event in a directory is enough. -/
theorem entriesChangedWithin_of_mem {t₀ t : StampedTree FileName}
    {history : List (Time × Event FileName)} (hrun : t₀.run history = some t)
    (hchron : history.Pairwise fun earlier later => earlier.1 ≤ later.1)
    {now : Time} {days : Int} {d : Path FileName} (hd : (t.entry d).isSome)
    {step : Time × Event FileName} (hstep : step ∈ history)
    (hstamps : ∀ before, step.2.stampAfter d step.1 before = some step.1)
    (hage : ageDays now step.1 ≤ days) : EntriesChangedWithin now days t₀ history d := by
  obtain ⟨e, he⟩ := Option.isSome_iff_exists.mp hd
  have hlast : lastStamp d (t₀.mtime d) history = some e.mtime := by
    rw [← mtime_run hrun d, FileTree.mtime, he]
    rfl
  have hge := lastStamp_ge_of_mem hchron hstep hstamps hlast
  exact ⟨e.mtime, hlast, (ageDays_anti hge).trans hage⟩

/-! ### A build script run again in place -/

def package : FileName := ⟨"serde-0e8b8d59", by decide⟩
def output : FileName := ⟨"output", by decide⟩

/-- Cargo builds a package on the first day and reruns its build script nine days
    later, which rewrites the recorded output in place. -/
def rewrittenOutput : List (Time × Event FileName) :=
  [(0, .createDir [] target), (0, .createDir [target] debug),
    (0, .createDir [target, debug] build), (0, .createDir [target, debug, build] package),
    (0, .createFile [target, debug, build, package] output),
    (9 * day, .write [target, debug, build, package, output])]

def outputPath : Path FileName := [target, debug, build, package, output]

/-- **A fresh file goes with its directory.**  The rewrite leaves the package's
    directory ten days old, so the first sweep removes it with the output in it. -/
theorem rewritten_output_removed :
    ∃ t t', (FileTree.empty 0).run rewrittenOutput = some t ∧
      Autoprune (10 * day) (10 * day) t t' ∧ IsFile t outputPath ∧
      WrittenLately (10 * day) (FileTree.empty 0) rewrittenOutput outputPath ∧
      t'.entry outputPath = none := by
  have hsome : ((FileTree.empty 0).run rewrittenOutput).isSome = true := by decide
  rcases Option.isSome_iff_exists.mp hsome with ⟨t, ht⟩
  have hfile : ((FileTree.empty 0).run rewrittenOutput).bind (·.entry outputPath) =
      some (.leaf (9 * day)) := by decide
  have hdir : ((FileTree.empty 0).run rewrittenOutput).bind (·.entry outputPath.dropLast) =
      some (.dir 0) := by decide
  rw [ht] at hfile hdir
  rcases exists_autoprune (10 * day) (10 * day) t with ⟨t', h⟩
  refine ⟨t, t', ht, h, ⟨_, hfile⟩, ?_, ?_⟩
  · exact Or.inl ⟨(9 * day, .write outputPath), by simp [rewrittenOutput, outputPath], rfl,
      by decide, by decide⟩
  · rw [autoprune_entry_eq_none_iff h]
    refine Or.inr ⟨outputPath.dropLast, List.dropLast_prefix _, Or.inl ⟨⟨package, ?_⟩, 0, hdir, ?_⟩⟩
    · exact Or.inr rfl
    · decide

/-- On the fifth day the same directory is still young enough. -/
theorem keepsFresh_on_fifth_day :
    ∃ t, (FileTree.empty 0).run rewrittenOutput = some t ∧
      KeepsFresh (5 * day) (5 * day) (FileTree.empty 0) rewrittenOutput t := by
  have hsome : ((FileTree.empty 0).run rewrittenOutput).isSome = true := by decide
  obtain ⟨t, ht⟩ := Option.isSome_iff_exists.mp hsome
  refine ⟨t, ht, (keepsFresh_iff _ _ ht).mpr ?_⟩
  intro f hf hfresh d hdf hne
  have hpath : f = outputPath := by
    rcases hfresh with ⟨step, hstep, hwritten, _⟩ | ⟨m, hm, _⟩
    · simp only [rewrittenOutput, List.mem_cons, List.not_mem_nil, or_false] at hstep
      rcases hstep with rfl | rfl | rfl | rfl | rfl | rfl
      · simp [Event.written] at hwritten
      · simp [Event.written] at hwritten
      · simp [Event.written] at hwritten
      · simp [Event.written] at hwritten
      · exact (Option.some.inj hwritten).symm
      · exact (Option.some.inj hwritten).symm
    · -- before the history there is only the root, and it is no file
      have hroot : f = [] := by
        by_contra hne
        simp [FileTree.mtime, FileTree.empty, hne] at hm
      subst hroot
      rcases t.root_dir with ⟨d, hd⟩
      rcases hf with ⟨m', hm'⟩
      rw [hd] at hm'
      cases hm'
  subst hpath
  have hchanged : ∀ p ∈ outputPath.inits, p ≠ outputPath →
      lastStamp p ((FileTree.empty 0 : StampedTree FileName).mtime p) rewrittenOutput = some 0 := by
    decide
  have hstamp := hchanged d ((List.mem_inits _ _).mpr hdf) hne
  exact ⟨fun _ => ⟨0, hstamp, by decide⟩, fun _ => ⟨0, hstamp, by decide⟩⟩

end DevenvTemplate.EnterShell
