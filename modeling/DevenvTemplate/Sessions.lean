import DevenvTemplate.AutopruneFreshness
import DevenvTemplate.LabelledRuns

/-!
# Builds and shell entries

A developer builds and enters the shell again and again.  Here events of a build and runs of
the autoprune follow each other in any order, and two promises of `rust.nix` are about all
of them: a cache in use survives every shell entry (`session_keeps`), and what a shell entry
leaves behind is bounded until the next one (`session_bounded`).
-/

namespace DevenvTemplate.EnterShell

open FileTrees LabelledRuns

/-! ### Sessions -/

/-- A system call of a build, or a shell entry with the start times of its sweeps. -/
inductive Happening where
  | event (clock : Time) (event : Event FileName)
  | enterShell (now₁ now₂ : Time)

def Happening.time : Happening → Time
  | .event clock _ => clock
  | .enterShell now₁ _ => now₁

inductive SessionStep (t : StampedTree FileName) : Happening → StampedTree FileName → Prop
  | event {clock : Time} {event : Event FileName} {t' : StampedTree FileName}
      (happly : t.apply clock event = some t') : SessionStep t (.event clock event) t'
  | enterShell {now₁ now₂ : Time} {t' : StampedTree FileName} (hclock : now₁ ≤ now₂)
      (hprune : Autoprune now₁ now₂ t t') : SessionStep t (.enterShell now₁ now₂) t'

/-- The clock is not set back. -/
def Chronological (session : List Happening) : Prop :=
  session.Pairwise fun earlier later => earlier.time ≤ later.time

/-! ### One step -/

theorem mtime_eq_none_iff (t : StampedTree FileName) (p : Path FileName) :
    t.mtime p = none ↔ t.entry p = none := by
  rw [FileTree.mtime, Option.map_eq_none_iff]

theorem mtime_of_dir {t : StampedTree FileName} {p : Path FileName} {m : Time}
    (h : t.entry p = some (.dir m)) : t.mtime p = some m := by
  rw [FileTree.mtime, h]
  rfl

theorem dir_withDirData {e : Option (Entry Time Time)} {clock m : Time}
    (h : e.map (Entry.withDirData clock) = some (.dir m)) : m = clock := by
  rcases Option.map_eq_some_iff.mp h with ⟨_ | _, _, heq⟩
  · exact (Entry.dir.inj heq).symm
  · simp [Entry.withDirData] at heq

theorem dir_create {t t' : StampedTree FileName} {clock : Time} {dir : Path FileName}
    {name : FileName} {e : Entry Time Time} (he : e.mtime = clock)
    (h : t.create clock dir name e = some t') {p : Path FileName} {m : Time}
    (hm : t'.entry p = some (.dir m)) : t.entry p = some (.dir m) ∨ m = clock := by
  unfold FileTree.create at h
  split at h
  · obtain rfl := Option.some.inj h
    rw [FileTree.entry_setDirData, FileTree.entry_insert] at hm
    split at hm
    · exact Or.inr (dir_withDirData hm)
    · split at hm
      · obtain rfl := Option.some.inj hm
        exact Or.inr he
      · exact Or.inl hm
  · contradiction

/-- A system call stamps a directory, or leaves it as it is. -/
theorem dir_apply {t t' : StampedTree FileName} {clock : Time} {event : Event FileName}
    (h : t.apply clock event = some t') {p : Path FileName} {m : Time}
    (hm : t'.entry p = some (.dir m)) : t.entry p = some (.dir m) ∨ m = clock := by
  cases event with
  | createFile dir name => exact dir_create rfl h hm
  | createDir dir name => exact dir_create rfl h hm
  | delete dir name =>
    simp only [FileTree.apply] at h
    split at h
    · obtain rfl := Option.some.inj h
      rw [FileTree.entry_removeTree _ _ _ _ (by simp)] at hm
      split at hm
      · contradiction
      · split at hm
        · exact Or.inr (dir_withDirData hm)
        · exact Or.inl hm
    · contradiction
  | write file =>
    simp only [FileTree.apply] at h
    split at h
    · rename_i hleaf
      obtain rfl := Option.some.inj h
      rw [FileTree.entry_setLeafData] at hm
      split at hm
      · rename_i hp
        subst hp
        rw [hleaf] at hm
        simp [Entry.withLeafData] at hm
      · exact Or.inl hm
    · contradiction

/-- A step leaves a directory as it is, or stamps it. -/
theorem dir_step {t t' : StampedTree FileName} {happening : Happening}
    (h : SessionStep t happening t') {p : Path FileName} {m : Time}
    (hm : t'.entry p = some (.dir m)) : t.entry p = some (.dir m) ∨ happening.time ≤ m := by
  cases h with
  | event happly =>
    rcases dir_apply happly hm with hsame | rfl
    · exact Or.inl hsame
    · exact Or.inr (le_refl m)
  | enterShell hclock hprune =>
    rcases autoprune_kept hprune (by rw [hm]; nofun) with heq | ⟨_, _, m', hm', _, hnew⟩
    · exact Or.inl (heq ▸ hm)
    · rw [hm] at hnew
      obtain rfl := Entry.dir.inj (Option.some.inj hnew)
      rcases hm' with hle | hle
      · exact Or.inr hle
      · exact Or.inr (hclock.trans hle)

/-! ### What is left behind -/

/-- Nothing becomes prunable at a time that is past. -/
theorem not_prunable_step {now₁ now₂ : Time} {t t' : StampedTree FileName} {happening : Happening}
    (hgap : ageDays now₂ now₁ ≤ 30) (hlater : now₁ ≤ happening.time)
    (h : SessionStep t happening t') (hs : ∀ p, ¬ Prunable now₁ now₂ t p) (p : Path FileName) :
    ¬ Prunable now₁ now₂ t' p := by
  intro hprunable
  have hdir : ∃ m, t'.entry p = some (.dir m) := by
    rcases hprunable with ⟨_, m, hm, _⟩ | ⟨_, m, hm, _⟩
    · exact ⟨m, hm⟩
    · exact ⟨m, hm⟩
  obtain ⟨m, hm⟩ := hdir
  rcases dir_step h hm with hsame | hle
  · apply hs p
    simpa only [Prunable, StaleBuildDir, StaleTargetDir, OlderThan, hm, hsame] using hprunable
  · exact not_prunable_of_stamped hgap (hlater.trans hle) hm hprunable

theorem not_prunable_run {now₁ now₂ : Time} {t t' : StampedTree FileName}
    {session : List Happening} (hgap : ageDays now₂ now₁ ≤ 30)
    (hlater : ∀ happening ∈ session, now₁ ≤ happening.time)
    (hrun : Run SessionStep t session t') (hs : ∀ p, ¬ Prunable now₁ now₂ t p) :
    ∀ p, ¬ Prunable now₁ now₂ t' p := by
  induction hrun with
  | nil => exact hs
  | snoc run step ih =>
    have hbefore := ih fun happening hmem => hlater happening (List.mem_append_left _ hmem)
    exact not_prunable_step hgap (hlater _ (by simp)) step hbefore

/-- **What a shell entry leaves behind is bounded.**  At any later moment of a session, each
    directory that the sweeps look at is one that was young enough when the shell was
    last entered, or was stamped since. -/
theorem session_bounded {t₀ t : StampedTree FileName} {before after : List Happening}
    {now₁ now₂ : Time} (hgap : ageDays now₂ now₁ ≤ 30)
    (hchron : Chronological (before ++ .enterShell now₁ now₂ :: after))
    (hrun : Run SessionStep t₀ (before ++ .enterShell now₁ now₂ :: after) t)
    {d : Path FileName} {m : Time} (hd : t.entry d = some (.dir m)) :
    (InBuildCache d → ageDays now₁ m ≤ 5) ∧ (InTargetPosition d → ageDays now₂ m ≤ 30) := by
  rw [List.append_cons] at hrun hchron
  rcases hrun.of_append with ⟨t₂, hfirst, hrest⟩
  rcases hfirst.of_snoc with ⟨t₁, _, hentry⟩
  have hlater : ∀ happening ∈ after, now₁ ≤ happening.time := by
    intro happening hmem
    exact (List.pairwise_append.mp hchron).2.2 (.enterShell now₁ now₂) (by simp) happening hmem
  have hleft : ∀ p, ¬ Prunable now₁ now₂ t p := by
    cases hentry with
    | enterShell hclock hprune =>
      exact not_prunable_run hgap hlater hrest (not_prunable_after hprune hclock hgap)
  constructor
  · intro hpos
    by_contra hage
    exact hleft d (Or.inl ⟨hpos, m, hd, Int.not_le.mp hage⟩)
  · intro hpos
    by_contra hage
    exact hleft d (Or.inr ⟨hpos, m, hd, Int.not_le.mp hage⟩)

/-! ### What is in use -/

/-- Stamps of `d` are no older than `clock`: it was stamped then, or had the stamp before all
    that has happened. -/
def StampedAt (t₀ : StampedTree FileName) (before : List Happening) (d : Path FileName)
    (clock : Time) : Prop :=
  (∃ event, .event clock event ∈ before ∧ ∀ m, event.stampAfter d clock m = some clock) ∨
    (t₀.mtime d = some clock ∧ ∀ happening ∈ before, clock ≤ happening.time)

/-- No sweep of a shell entry is for `d`, as far as the events tell. -/
def InUse (t₀ : StampedTree FileName) (before : List Happening) (now₁ now₂ : Time)
    (d : Path FileName) : Prop :=
  (InBuildCache d → ∃ clock, StampedAt t₀ before d clock ∧ ageDays now₁ clock ≤ 5) ∧
    (InTargetPosition d → ∃ clock, StampedAt t₀ before d clock ∧ ageDays now₂ clock ≤ 30)

theorem stampedAt_snoc {t₀ : StampedTree FileName} {before : List Happening}
    {happening : Happening} (hchron : Chronological (before ++ [happening]))
    {d : Path FileName} {clock : Time} (h : StampedAt t₀ (before ++ [happening]) d clock) :
    (StampedAt t₀ before d clock ∧ clock ≤ happening.time) ∨
      ∃ event, happening = .event clock event ∧ ∀ m, event.stampAfter d clock m = some clock := by
  rcases h with ⟨event, hmem, hstamps⟩ | ⟨hstart, hle⟩
  · rcases List.mem_append.mp hmem with hmem | hmem
    · have hle := (List.pairwise_append.mp hchron).2.2 _ hmem happening (by simp)
      exact Or.inl ⟨Or.inl ⟨event, hmem, hstamps⟩, hle⟩
    · exact Or.inr ⟨event, (List.mem_singleton.mp hmem).symm, hstamps⟩
  · have hbefore : ∀ h ∈ before, clock ≤ h.time :=
      fun h hmem => hle h (List.mem_append_left _ hmem)
    exact Or.inl ⟨Or.inr ⟨hstart, hbefore⟩, hle happening (by simp)⟩

/-- A step leaves a stamp as it is, or makes it its own or a later one. -/
theorem mtime_step {t t' : StampedTree FileName} {happening : Happening}
    (h : SessionStep t happening t') {p : Path FileName} {m : Time} (hm : t'.mtime p = some m) :
    t.mtime p = some m ∨ happening.time ≤ m := by
  cases h with
  | @event clock event t' happly =>
    rw [mtime_apply happly] at hm
    rcases event.stampAfter_cases p clock (t.mtime p) with heq | heq | heq
    · rw [heq] at hm
      exact Or.inr (Option.some.inj hm).le
    · rw [heq] at hm
      contradiction
    · exact Or.inl (heq ▸ hm)
  | enterShell hclock hprune =>
    have hkept : t'.entry p ≠ none := by
      rw [Ne, ← mtime_eq_none_iff, hm]
      nofun
    rcases autoprune_kept hprune hkept with heq | ⟨_, _, m', hm', _, hnew⟩
    · rw [FileTree.mtime, ← heq]
      exact Or.inl hm
    · rw [mtime_of_dir hnew] at hm
      obtain rfl := Option.some.inj hm
      rcases hm' with hle | hle
      · exact Or.inr hle
      · exact Or.inr (hclock.trans hle)

theorem mtime_ge {t₀ t : StampedTree FileName} {session : List Happening}
    (hrun : Run SessionStep t₀ session t) (hchron : Chronological session) {d : Path FileName}
    {clock m : Time} (hstamped : StampedAt t₀ session d clock) (hm : t.mtime d = some m) :
    clock ≤ m := by
  induction hrun generalizing m with
  | nil =>
    rcases hstamped with ⟨event, hmem, _⟩ | ⟨hstart, _⟩
    · exact absurd hmem List.not_mem_nil
    · rw [hstart] at hm
      exact (Option.some.inj hm).le
  | snoc run step ih =>
    rcases stampedAt_snoc hchron hstamped with ⟨hbefore, hle⟩ | ⟨event, rfl, hstamps⟩
    · rcases mtime_step step hm with hsame | hnew
      · exact ih (List.pairwise_append.mp hchron).1 hbefore hsame
      · exact hle.trans hnew
    · cases step with
      | event happly =>
        rw [mtime_apply happly, hstamps] at hm
        exact (Option.some.inj hm).le

/-- An entry goes when it is deleted, or with what a shell entry prunes. -/
theorem isSome_step {t t' : StampedTree FileName} {happening : Happening}
    (h : SessionStep t happening t') {f : Path FileName} (hf : (t.entry f).isSome)
    (hdeleted : ∀ clock dir name, happening = .event clock (.delete dir name) → dir ++ [name] ≠ f)
    (hpruned : ∀ now₁ now₂, happening = .enterShell now₁ now₂ →
      ∀ d, d <+: f → ¬ Prunable now₁ now₂ t d) : (t'.entry f).isSome := by
  rw [← Option.ne_none_iff_isSome] at hf ⊢
  cases h with
  | @event clock event t' happly =>
    rw [Ne, ← mtime_eq_none_iff] at hf ⊢
    rw [mtime_apply happly]
    cases event with
    | delete dir name =>
      have hne : f ≠ dir ++ [name] := (hdeleted clock dir name rfl).symm
      simp only [Event.stampAfter, if_neg hne]
      split
      · exact Option.some_ne_none clock
      · exact hf
    | _ =>
      simp only [Event.stampAfter]
      split
      · exact Option.some_ne_none clock
      · exact hf
  | enterShell _ hprune =>
    intro hnone
    rcases (autoprune_entry_eq_none_iff hprune f).mp hnone with habsent | ⟨d, hle, hd⟩
    · exact hf habsent
    · exact hpruned _ _ rfl d hle hd

/-- **A cache in use survives every shell entry.**  If before each shell entry of a session each
    directory above an entry that the sweeps look at was stamped within the five or thirty
    days, the entry is still there at the end, unless the build itself has deleted it. -/
theorem session_keeps {t₀ t : StampedTree FileName} {session : List Happening}
    (hrun : Run SessionStep t₀ session t) (hchron : Chronological session) {f : Path FileName}
    (hf : (t₀.entry f).isSome)
    (hdeleted : ∀ clock dir name, .event clock (.delete dir name) ∈ session → dir ++ [name] ≠ f)
    (hused : ∀ i now₁ now₂, session[i]? = some (.enterShell now₁ now₂) →
      ∀ d, d <+: f → InUse t₀ (session.take i) now₁ now₂ d) : (t.entry f).isSome := by
  induction hrun with
  | nil => exact hf
  | @snoc t' t'' before happening run step ih =>
    have hchron' := (List.pairwise_append.mp hchron).1
    have hkept : (t'.entry f).isSome := by
      apply ih hchron'
      · exact fun clock dir name hmem => hdeleted clock dir name (List.mem_append_left _ hmem)
      · intro i now₁ now₂ hi d hd
        have hlt := (List.getElem?_eq_some_iff.mp hi).1
        have huse := hused i now₁ now₂ (by rw [List.getElem?_append_left hlt]; exact hi) d hd
        rwa [List.take_append_of_le_length hlt.le] at huse
    apply isSome_step step hkept
    · rintro clock dir name rfl
      exact hdeleted clock dir name (by simp)
    · rintro now₁ now₂ rfl d hd hprunable
      have huse := hused before.length now₁ now₂ (by simp) d hd
      rw [List.take_left] at huse
      rcases hprunable with ⟨hpos, m, hm, hage⟩ | ⟨hpos, m, hm, hage⟩
      · rcases huse.1 hpos with ⟨clock, hstamped, hrecent⟩
        have hle : ageDays now₁ m ≤ ageDays now₁ clock :=
          ageDays_anti (mtime_ge run hchron' hstamped (mtime_of_dir hm))
        omega
      · rcases huse.2 hpos with ⟨clock, hstamped, hrecent⟩
        have hle : ageDays now₂ m ≤ ageDays now₂ clock :=
          ageDays_anti (mtime_ge run hchron' hstamped (mtime_of_dir hm))
        omega

/-! ### A build script run again -/

def stderr : FileName := ⟨"stderr", by decide⟩

/-- The build script runs again and leaves another file, so that its directory is stamped
    before the shell is entered. -/
def reruns : List Happening :=
  [.event (9 * day) (.createFile [target, debug, build, package] stderr),
    .enterShell (10 * day) (10 * day), .enterShell (14 * day) (14 * day)]

theorem stamps_rewrittenOutput : ∀ d ∈ outputPath.inits,
    lastStamp d ((FileTree.empty 0 : StampedTree FileName).mtime d) rewrittenOutput ∈
      [some 0, some (9 * day)] := by
  decide

/-- Of the directories above the output only its own is in the build cache. -/
theorem buildCache_above_output {d : Path FileName} (hd : d <+: outputPath) (hpos : InBuildCache d) :
    d = [target, debug, build, package] := by
  have hlength : d.length = 4 := by
    rcases hpos with ⟨n, rfl | rfl⟩
    · rfl
    · rfl
  rw [List.prefix_iff_eq_take.mp hd, hlength]
  rfl

/-- When the shell is entered after `before`, which begins with the new run of the script. -/
theorem output_inUse {t₀ : StampedTree FileName} {before : List Happening} {now : Time}
    (hrun : (FileTree.empty 0).run rewrittenOutput = some t₀)
    (hfirst : .event (9 * day) (.createFile [target, debug, build, package] stderr) ∈ before)
    (hlater : ∀ happening ∈ before, 9 * day ≤ happening.time) (hnow : now ≤ 14 * day)
    {d : Path FileName} (hd : d <+: outputPath) : InUse t₀ before now now d := by
  have hage : ∀ clock days, ageDays (14 * day) clock ≤ days → ageDays now clock ≤ days := by
    intro clock days hle
    exact (Int.ediv_le_ediv (by decide) (Int.sub_le_sub_right hnow clock)).trans hle
  refine ⟨?_, fun _ => ?_⟩
  · intro hpos
    refine ⟨9 * day, Or.inl ⟨_, hfirst, ?_⟩, hage _ _ (by decide)⟩
    rw [buildCache_above_output hd hpos]
    intro m
    rfl
  · have hstamp := stamps_rewrittenOutput d ((List.mem_inits _ _).mpr hd)
    rw [← mtime_run hrun d] at hstamp
    rcases List.mem_cons.mp hstamp with hzero | hnine
    · refine ⟨0, Or.inr ⟨hzero, ?_⟩, hage _ _ (by decide)⟩
      intro happening hmem
      exact (by decide : (0 : Time) ≤ 9 * day).trans (hlater happening hmem)
    · exact ⟨9 * day, Or.inr ⟨List.mem_singleton.mp hnine, hlater⟩, hage _ _ (by decide)⟩

theorem reruns_session_keeps : ∃ t₀ t, (FileTree.empty 0).run rewrittenOutput = some t₀ ∧
    Run SessionStep t₀ reruns t ∧ (t.entry outputPath).isSome := by
  have hbuilt : (((FileTree.empty 0).run rewrittenOutput).bind fun t =>
      t.apply (9 * day) (.createFile [target, debug, build, package] stderr)).isSome = true := by
    decide
  have hfile : ((FileTree.empty 0).run rewrittenOutput).bind (·.entry outputPath) =
      some (.leaf (9 * day)) := by decide
  rcases Option.isSome_iff_exists.mp hbuilt with ⟨t₁, hbuilt⟩
  rcases Option.bind_eq_some_iff.mp hbuilt with ⟨t₀, hrun, happly⟩
  rcases exists_autoprune (10 * day) (10 * day) t₁ with ⟨t₂, hfirst⟩
  rcases exists_autoprune (14 * day) (14 * day) t₂ with ⟨t₃, hsecond⟩
  have hsession : Run SessionStep t₀ reruns t₃ :=
    Run.snoc (Run.snoc (Run.single (.event happly)) (.enterShell (le_refl _) hfirst))
      (.enterShell (le_refl _) hsecond)
  rw [hrun] at hfile
  have hf : (t₀.entry outputPath).isSome := Option.isSome_iff_exists.mpr ⟨_, hfile⟩
  refine ⟨t₀, t₃, hrun, hsession, session_keeps hsession ?_ hf ?_ ?_⟩
  · unfold Chronological
    decide
  · simp [reruns]
  · intro i now₁ now₂ hi d hd
    have htake : ∀ i, reruns[i]? = some (.enterShell now₁ now₂) → now₁ = now₂ ∧ now₁ ≤ 14 * day ∧
        .event (9 * day) (.createFile [target, debug, build, package] stderr) ∈ reruns.take i := by
      intro i hi
      match i, hi with
      | 1, rfl => exact ⟨rfl, by decide, List.mem_cons_self⟩
      | 2, rfl => exact ⟨rfl, by decide, List.mem_cons_self⟩
    obtain ⟨rfl, hnow, hmem⟩ := htake i hi
    refine output_inUse hrun hmem ?_ hnow hd
    intro happening hhappening
    have hall : ∀ happening ∈ reruns, 9 * day ≤ happening.time := by
      simp [reruns, Happening.time, day]
    exact hall happening (List.mem_of_mem_take hhappening)

theorem rewrittenOutput_session_bounded : ∃ t₀ t m,
    (FileTree.empty 0).run rewrittenOutput = some t₀ ∧
      Run SessionStep t₀ [.enterShell (4 * day) (4 * day)] t ∧
      t.entry outputPath.dropLast = some (.dir m) ∧ ageDays (4 * day) m ≤ 5 := by
  have hdir : ((FileTree.empty 0).run rewrittenOutput).bind (·.entry outputPath.dropLast) =
      some (.dir 0) := by decide
  rcases Option.bind_eq_some_iff.mp hdir with ⟨t₀, hrun, hdir⟩
  rcases exists_autoprune (4 * day) (4 * day) t₀ with ⟨t, hprune⟩
  have hyoung : ∀ d, d <+: outputPath → ¬ Prunable (4 * day) (4 * day) t₀ d := by
    intro d hd hprunable
    have hstamp := stamps_rewrittenOutput d ((List.mem_inits _ _).mpr hd)
    rw [← mtime_run hrun d] at hstamp
    have hage : ∀ m ∈ [0, 9 * day], ageDays (4 * day) m ≤ 5 := by decide
    rcases hprunable with ⟨_, m, hm, hold⟩ | ⟨_, m, hm, hold⟩
    all_goals
      rw [mtime_of_dir hm] at hstamp
      have := hage m (by simpa using hstamp)
      omega
  have hkept : t.entry outputPath.dropLast ≠ none := by
    intro hnone
    rcases (autoprune_entry_eq_none_iff hprune _).mp hnone with habsent | ⟨d, hle, hd⟩
    · rw [hdir] at habsent
      contradiction
    · exact hyoung d (hle.trans (List.dropLast_prefix outputPath)) hd
  have hsession : Run SessionStep t₀ ([] ++ .enterShell (4 * day) (4 * day) :: []) t :=
    Run.single (.enterShell (le_refl _) hprune)
  obtain ⟨m, hm⟩ : ∃ m, t.entry outputPath.dropLast = some (.dir m) := by
    rcases autoprune_kept hprune hkept with heq | ⟨_, _, m, _, _, hm⟩
    · exact ⟨0, heq.trans hdir⟩
    · exact ⟨m, hm⟩
  have hpos : InBuildCache outputPath.dropLast := ⟨package, Or.inr rfl⟩
  have hchron : Chronological ([] ++ .enterShell (4 * day) (4 * day) :: []) :=
    List.pairwise_singleton _ _
  exact ⟨t₀, t, m, hrun, hsession, hm, (session_bounded (by decide) hchron hsession hm).1 hpos⟩

end DevenvTemplate.EnterShell
