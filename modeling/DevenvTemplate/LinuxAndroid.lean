import DevenvTemplate.Lazy
import DevenvTemplate.UseFileResults

/-!
# The backend for Linux and Android

`linux_android_with_fallback.rs` fills a buffer by `getrandom` where a probe has found it, and
from `/dev/urandom` elsewhere.  Any number of calls are at it at the same time: some look for
the function, some call it, and some wait for the file.  Seen from one of its parts a run of
the backend is a run of that part (`find_run`, `file_run`), so that what holds of
`GETRANDOM_FN` and of `FD` alone holds of them here.
-/

namespace DevenvTemplate.LinuxAndroid

open ByteMemory Getrandom UtilLibc LabelledRuns Lazy

variable {w : Nat} {Thread : Type}

/-! ### The backend -/

/-- The calls of `fill_inner`, each with its buffer and what the functions return to it. -/
structure Config (Thread : Type) (w : Nat) where
  target : Target
  dest : Thread → Slice
  functions : Thread → BitVec w → SysFill

/-- Both systems have the futex. -/
def Config.file (cfg : Config Thread w) : UseFile.Config Thread := ⟨true, cfg.dest⟩

/-- `GETRANDOM_FN` with the calls that look it up, `FD` with the calls that use the file, and
    what the calls of `getrandom` have left. -/
structure State (Thread : Type) (w : Nat) where
  getrandomFn : RacyInit.State Thread (BitVec w) (Probe w) (BitVec w)
  file : UseFile.State Thread
  filled : Thread → Option (Except Error Unit × Getrandom.State)

inductive Label (Thread : Type) (w : Nat) where
  | find (label : RacyInit.Label Thread (BitVec w) (Probe w))
  | file (label : UseFile.Label Thread)
  | fill (t : Thread)

section Steps

variable [DecidableEq Thread]

/-- `fill_inner`: a call looks the function up once, and then takes one of two ways.  What
    `sys_fill_exact` does is of no concern to other calls, and is one step here. -/
inductive Step (cfg : Config Thread w) (s : State Thread w) :
    Label Thread w → State Thread w → Prop
  | find {label : RacyInit.Label Thread (BitVec w) (Probe w)}
      {getrandomFn : RacyInit.State Thread (BitVec w) (Probe w) (BitVec w)}
      (honce : label.2 ≠ .again)
      (hstep : RacyInit.Step (Lazy.getrandomFn w cfg.target) s.getrandomFn label getrandomFn) :
      Step cfg s (.find label) { s with getrandomFn }
  | useFileFallback {t : Thread} {event : UseFile.Event} {retry : Bool} {file : UseFile.State Thread}
      (hfptr : (s.getrandomFn.caller t).pc = .done (notAvailable w))
      (hstep : UseFile.Step cfg.file s.file (.call t event retry) file) :
      Step cfg s (.file (.call t event retry)) { s with file }
  | sysFillExact {t : Thread} {fptr : BitVec w} {fuel : Nat}
      {filled : Except Error Unit × Getrandom.State}
      (hfptr : (s.getrandomFn.caller t).pc = .done fptr) (hne : fptr ≠ notAvailable w)
      (hfirst : s.filled t = none)
      (hfilled : UtilLibc.sysFillExact (cfg.functions t fptr) fuel (cfg.dest t)
        ⟨(s.file.call t).memory, 0⟩ = some filled) :
      Step cfg s (.fill t) { s with filled := Function.update s.filled t (some filled) }
  -- the rest of the process
  | other {file : UseFile.State Thread} (hstep : UseFile.Step cfg.file s.file .other file) :
      Step cfg s (.file .other) { s with file }

/-- Before the first call. -/
structure Initial (target : Target) (s : State Thread w) : Prop where
  getrandomFn : RacyInit.Initial (Lazy.getrandomFn w target) s.getrandomFn
  file : UseFile.Initial s.file
  filled : ∀ t, s.filled t = none

end Steps

/-- What a call has returned, with its memory. -/
def State.returned (s : State Thread w) (t : Thread) : Option (Except Error Unit × Memory) :=
  match s.filled t with
  | some (result, m) => some (result, m.memory)
  | none =>
    match (s.file.call t).pc with
    | .returned result => some (result, (s.file.call t).memory)
    | _ => none

/-! ### The parts of a run -/

def Label.find? : Label Thread w → Option (RacyInit.Label Thread (BitVec w) (Probe w))
  | .find label => some label
  | _ => none

def Label.file? : Label Thread w → Option (UseFile.Label Thread)
  | .file label => some label
  | _ => none

def finds (labels : List (Label Thread w)) : List (RacyInit.Label Thread (BitVec w) (Probe w)) :=
  labels.filterMap Label.find?

def files (labels : List (Label Thread w)) : List (UseFile.Label Thread) :=
  labels.filterMap Label.file?

section Runs

variable [DecidableEq Thread] {cfg : Config Thread w} {s₀ s s' : State Thread w}
  {labels : List (Label Thread w)}

/-- Seen from `GETRANDOM_FN`. -/
theorem find_run (hrun : Run (Step cfg) s₀ labels s) :
    Run (RacyInit.Step (Lazy.getrandomFn w cfg.target)) s₀.getrandomFn (finds labels)
      s.getrandomFn := by
  apply Run.project (f := State.getrandomFn) _ hrun
  intro s label s' h
  cases h with
  | find _ hstep => exact Or.inr ⟨_, rfl, hstep⟩
  | useFileFallback | sysFillExact | other => exact Or.inl ⟨rfl, rfl⟩

/-- Seen from `FD`. -/
theorem file_run (hrun : Run (Step cfg) s₀ labels s) :
    Run (UseFile.Step cfg.file) s₀.file (files labels) s.file := by
  apply Run.project (f := State.file) _ hrun
  intro s label s' h
  cases h with
  | useFileFallback _ hstep | other hstep => exact Or.inr ⟨_, rfl, hstep⟩
  | find | sysFillExact => exact Or.inl ⟨rfl, rfl⟩

/-! ### Which way a call takes -/

/-- A call is at work on the file only if it has found no function, and has filled its buffer
    by a function only if that is the one it has found. -/
structure Chosen (cfg : Config Thread w) (before : Thread → Memory) (s : State Thread w) : Prop where
  file : ∀ t, (s.file.call t).pc ≠ .fillInner →
    (s.getrandomFn.caller t).pc = .done (notAvailable w)
  untouched : ∀ t, (s.file.call t).pc = .fillInner → (s.file.call t).memory = before t
  filled : ∀ t filled, s.filled t = some filled → ∃ fptr fuel,
    (s.getrandomFn.caller t).pc = .done fptr ∧ fptr ≠ notAvailable w ∧
      UtilLibc.sysFillExact (cfg.functions t fptr) fuel (cfg.dest t) ⟨before t, 0⟩ = some filled

omit [DecidableEq Thread] in
theorem next_ne_fillInner {linux : Bool} {dest : Slice} {pc pc' : UseFile.Pc}
    {event : UseFile.Event} (h : pc.next linux dest event = some pc') : pc' ≠ .fillInner := by
  cases UseFile.next_moves h with
  | _ => nofun

/-- A call that has not begun with the file is not woken either. -/
theorem file_step {fileCfg : UseFile.Config Thread} {file file' : UseFile.State Thread}
    {t u : Thread} {event : UseFile.Event} {retry : Bool} (hq : UseFile.Queued file)
    (h : UseFile.Step fileCfg file (.call t event retry) file') (hu : u ≠ t) :
    (file'.call u).memory = (file.call u).memory ∧
      ((file'.call u).pc = .fillInner ↔ (file.call u).pc = .fillInner) := by
  constructor
  · rcases UseFile.step_memory h u with ⟨hsame, _⟩ | ⟨heq, _⟩
    · exact hsame
    · exact absurd heq hu
  · rw [(UseFile.step_pc h).2 u hu]
    split
    · rename_i hwoken
      have hasleep := (hq u).mp hwoken.2
      constructor
      · intro hpc
        contradiction
      · intro hpc
        rw [hpc] at hasleep
        contradiction
    · rfl

theorem chosen_step {before : Thread → Memory} {label : Label Thread w}
    (hq : UseFile.Queued s.file) (hs : Chosen cfg before s) (h : Step cfg s label s') :
    Chosen cfg before s' := by
  cases h with
  | find honce hstep =>
    refine ⟨?_, hs.untouched, ?_⟩
    · intro t hpc
      exact RacyInit.done_step hstep honce (hs.file t hpc)
    · intro t filled hfilled
      rcases hs.filled t filled hfilled with ⟨fptr, fuel, hfptr, hrest⟩
      exact ⟨fptr, fuel, RacyInit.done_step hstep honce hfptr, hrest⟩
  | @useFileFallback t event retry file hfptr hstep =>
    refine ⟨?_, ?_, hs.filled⟩
    · intro u hpc
      by_cases hu : u = t
      · exact hu ▸ hfptr
      · exact hs.file u (mt (file_step hq hstep hu).2.mpr hpc)
    · intro u hpc
      by_cases hu : u = t
      · exact absurd (hu ▸ hpc) (next_ne_fillInner (UseFile.step_pc hstep).1)
      · obtain ⟨hmemory, hbegin⟩ := file_step hq hstep hu
        exact hmemory.trans (hs.untouched u (hbegin.mp hpc))
  | @sysFillExact t fptr fuel filled hfptr hne _ hfilled =>
    refine ⟨hs.file, hs.untouched, ?_⟩
    intro u filled' hfilled'
    by_cases hu : u = t
    · subst hu
      -- a call that has found a function is not at work on the file
      have hbegin : (s.file.call u).pc = .fillInner := by
        by_contra hpc
        exact hne (RacyInit.Pc.done.inj (hfptr.symm.trans (hs.file u hpc)))
      rw [hs.untouched u hbegin] at hfilled
      simp only [Function.update_self, Option.some.injEq] at hfilled'
      exact ⟨fptr, fuel, hfptr, hne, hfilled' ▸ hfilled⟩
    · simp only [Function.update_of_ne hu] at hfilled'
      exact hs.filled u filled' hfilled'
  | other hstep =>
    obtain ⟨_, hcall, _⟩ := UseFile.step_other hstep
    refine ⟨?_, ?_, hs.filled⟩
    · intro t hpc
      rw [hcall] at hpc
      exact hs.file t hpc
    · intro t hpc
      rw [hcall] at hpc ⊢
      exact hs.untouched t hpc

theorem chosen_run (hs : Initial cfg.target s₀) (hrun : Run (Step cfg) s₀ labels s) :
    Chosen cfg (fun t => (s₀.file.call t).memory) s := by
  induction hrun with
  | nil =>
    refine ⟨?_, fun _ _ => rfl, ?_⟩
    · intro t hpc
      exact absurd (hs.file.pc t) hpc
    · intro t filled hfilled
      rw [hs.filled t] at hfilled
      contradiction
  | snoc run step ih => exact chosen_step (UseFile.queued_run hs.file (file_run run)) ih step

/-! ### Where the bytes come from -/

/-- A probe that sends its call to the file. -/
def FallsBack (target : Target) (p : Probe w) : Prop :=
  p.Unavailable target ∨ p.rawPtr = notAvailable w

omit [DecidableEq Thread] in
theorem initGetrandomFn_eq_iff (target : Target) (p : Probe w) :
    initGetrandomFn target p = notAvailable w ↔ FallsBack target p := by
  rcases initGetrandomFn_cases target p with ⟨hun, heq⟩ | ⟨hav, _, heq⟩
  · simp [FallsBack, hun, heq]
  · simp [FallsBack, hav, heq]

/-- The calls on the file go by a probe. -/
theorem fallsBack_of_done (hw : 0 < w) (hs : Initial cfg.target s₀)
    (hrun : Run (Step cfg) s₀ labels s) {t : Thread}
    (hfptr : (s.getrandomFn.caller t).pc = .done (notAvailable w)) :
    ∃ p, RacyInit.Ran (finds labels) p ∧ FallsBack cfg.target p := by
  have hsound := atomicPtr_sound (initGetrandomFn_ne_null hw cfg.target) hs.getrandomFn
    (find_run hrun) t
  rcases hsound.1 _ hfptr with ⟨p, hran, _, heq⟩
  exact ⟨p, hran, (initGetrandomFn_eq_iff _ p).mp heq.symm⟩

/-- The buffer is full of bytes that reads of the call delivered, after a probe that sent it,
    or the thread it has the outcome from, to the file. -/
def FromFile (cfg : Config Thread w) (labels : List (Label Thread w)) (t : Thread) (m : Memory) :
    Prop :=
  (∃ p, RacyInit.Ran (finds labels) p ∧ FallsBack cfg.target p) ∧
    ∀ i < (cfg.dest t).len, UseFile.Delivered (files labels) t m ((cfg.dest t).addr + i)

/-- The buffer is full of bytes that a function delivered, which a probe had found. -/
def FromGetrandom (cfg : Config Thread w) (labels : List (Label Thread w)) (t : Thread)
    (before m : Memory) : Prop :=
  ∃ p after, RacyInit.Ran (finds labels) p ∧ ¬ FallsBack cfg.target p ∧ p.rawPtr ≠ 0#w ∧
    after.memory = m ∧ ∀ i < (cfg.dest t).len,
      UtilLibc.Delivered (cfg.functions t p.rawPtr) (cfg.dest t) ⟨before, 0⟩ after i

theorem from_getrandom (hw : 0 < w) (hs : Initial cfg.target s₀)
    (hrun : Run (Step cfg) s₀ labels s) {t : Thread} {after : Getrandom.State}
    (hfilled : s.filled t = some (.ok (), after)) :
    FromGetrandom cfg labels t (s₀.file.call t).memory after.memory := by
  rcases (chosen_run hs hrun).filled t _ hfilled with ⟨fptr, fuel, hfptr, hne, hsys⟩
  have hsound := atomicPtr_sound (initGetrandomFn_ne_null hw cfg.target) hs.getrandomFn
    (find_run hrun) t
  rcases hsound.1 _ hfptr with ⟨p, hran, _, heq⟩
  rcases initGetrandomFn_cases cfg.target p with ⟨_, hinit⟩ | ⟨_, hnull, hinit⟩
  · exact absurd (heq.trans hinit) hne
  · refine ⟨p, after, hran, ?_, ?_, rfl, ?_⟩
    · exact fun hback => hne (heq.trans ((initGetrandomFn_eq_iff _ p).mpr hback))
    · exact hinit ▸ hnull
    · rw [← hinit, ← heq]
      exact sysFillExact_ok hsys

theorem from_file (hw : 0 < w) (hs : Initial cfg.target s₀) (hrun : Run (Step cfg) s₀ labels s)
    {t : Thread} (hpc : (s.file.call t).pc = .returned (.ok ())) :
    FromFile cfg labels t (s.file.call t).memory := by
  have hfptr := (chosen_run hs hrun).file t (by rw [hpc]; nofun)
  refine ⟨fallsBack_of_done hw hs hrun hfptr, ?_⟩
  intro i hi
  have hfile := UseFile.filled_run hs.file (file_run hrun) t
  exact hfile.returned hpc _ (Nat.le_add_right _ _) (Nat.add_lt_add_left hi _)

/-! ### Without the fallback -/

theorem files_other (hw : 0 < w) (hs : Initial cfg.target s₀) (hrun : Run (Step cfg) s₀ labels s)
    (hfound : ∀ p, RacyInit.Ran (finds labels) p → ¬ FallsBack cfg.target p) :
    ∀ label ∈ files labels, label = .other := by
  induction hrun with
  | nil => simp [files]
  | @snoc s' s'' labels label run step ih =>
    have hbefore : ∀ p, RacyInit.Ran (finds labels) p → ¬ FallsBack cfg.target p := by
      intro p hran
      apply hfound p
      rw [finds, List.filterMap_append]
      exact hran.of_append _
    intro fileLabel hmem
    rw [files, List.filterMap_append] at hmem
    rcases List.mem_append.mp hmem with hmem | hmem
    · exact ih hbefore fileLabel hmem
    · cases step with
      | useFileFallback hfptr =>
        rcases fallsBack_of_done hw hs run hfptr with ⟨p, hran, hback⟩
        exact absurd hback (hbefore p hran)
      | other => simpa [Label.file?] using hmem
      | find | sysFillExact => simp [Label.file?] at hmem

/-- The rest of the process alone opens neither file. -/
theorem others_run {fileCfg : UseFile.Config Thread} {file₀ file : UseFile.State Thread}
    {fileLabels : List (UseFile.Label Thread)} (hs : UseFile.Initial file₀)
    (hrun : Run (UseFile.Step fileCfg) file₀ fileLabels file)
    (hother : ∀ label ∈ fileLabels, label = .other) :
    (∀ t, (file.call t).pc = .fillInner) ∧ file.fd = AtomicCell.Cell.new UseFile.fdUninit ∧
      ∀ fd, file.files fd = none ∨ file.files fd = some .other := by
  induction hrun with
  | nil => exact ⟨hs.pc, hs.fd, hs.files⟩
  | @snoc file' file'' fileLabels label run step ih =>
    obtain ⟨hpc, hfd, hfiles⟩ := ih fun label hmem => hother label (List.mem_append_left _ hmem)
    obtain rfl : label = .other := hother label (by simp)
    have hupdate : ∀ changed file, file = none ∨ file = some .other →
        ∀ fd, Function.update file'.files changed file fd = none ∨
          Function.update file'.files changed file fd = some .other := by
      intro changed file hfile fd
      rw [Function.update_apply]
      split
      · exact hfile
      · exact hfiles fd
    cases step with
    | otherOpens => exact ⟨hpc, hfd, hupdate _ _ (Or.inr rfl)⟩
    | otherCloses => exact ⟨hpc, hfd, hupdate _ _ (Or.inl rfl)⟩

/-- **The file stays closed where `getrandom` works.**  As long as no probe sends its call to
    the file, no call touches it: `FD` is as it was, and neither file is open. -/
theorem file_unused (hw : 0 < w) (hs : Initial cfg.target s₀) (hrun : Run (Step cfg) s₀ labels s)
    (hfound : ∀ p, RacyInit.Ran (finds labels) p → ¬ FallsBack cfg.target p) :
    (∀ t, (s.file.call t).pc = .fillInner) ∧ s.file.fd = AtomicCell.Cell.new UseFile.fdUninit ∧
      ∀ fd, s.file.files fd = none ∨ s.file.files fd = some .other :=
  others_run hs.file (file_run hrun) (files_other hw hs hrun hfound)

/-- The calls that look the function up, by themselves. -/
theorem run_of_finds {fn fn' : RacyInit.State Thread (BitVec w) (Probe w) (BitVec w)}
    {found : List (RacyInit.Label Thread (BitVec w) (Probe w))} (s : State Thread w)
    (hrun : Run (RacyInit.Step (Lazy.getrandomFn w cfg.target)) fn found fn')
    (honce : ∀ label ∈ found, label.2 ≠ .again) :
    Run (Step cfg) { s with getrandomFn := fn } (found.map .find)
      { s with getrandomFn := fn' } := by
  induction hrun with
  | nil => exact Run.nil
  | @snoc fn' fn'' found label run step ih =>
    rw [List.map_append]
    have hbefore := ih fun label hmem => honce label (List.mem_append_left _ hmem)
    exact Run.snoc hbefore (Step.find (honce label (by simp)) step)

end Runs

/-! ### One call -/

/-- `getrandom` delivers one byte at a time. -/
def oneConfig : Config Unit 64 := ⟨⟨true, false⟩, fun _ => ⟨0, 2⟩, fun _ _ => ones⟩

def oneInitial : State Unit 64 where
  getrandomFn := ⟨AtomicCell.Cell.new 0#64, fun _ => ⟨.ready, ⟨0, ∅⟩⟩⟩
  file := UseFile.soloInitial
  filled _ := none

theorem one_initial : Initial oneConfig.target oneInitial :=
  ⟨⟨rfl, fun _ => rfl⟩, UseFile.solo_initial, fun _ => rfl⟩

/-- What the probe of this call finds. -/
def works : Probe 64 := ⟨4096#64, 0, eperm⟩

theorem one_fills : ∃ labels s m, Run (Step oneConfig) oneInitial labels s ∧
    s.returned () = some (.ok (), m) ∧ ∀ p, RacyInit.Ran (finds labels) p → p = works := by
  rcases RacyInit.exists_alone one_initial.getrandomFn () (o := works) rfl with
    ⟨found, fn, hrun, hpc, _, _, hlabels⟩
  have honce : ∀ label ∈ found, label.2 ≠ .again := by
    intro label hmem heq
    have hlabel := hlabels label hmem
    simp [heq] at hlabel
  have hfind : Run (Step oneConfig) oneInitial (found.map .find)
      { oneInitial with getrandomFn := fn } := run_of_finds oneInitial hrun honce
  have hfptr : (fn.caller ()).pc = .done 4096#64 := hpc
  have hfill : UtilLibc.sysFillExact ones 4 ⟨0, 2⟩ ⟨(oneInitial.file.call ()).memory, 0⟩ =
      some (.ok (), _) := rfl
  refine ⟨_, _, _, Run.snoc hfind (Step.sysFillExact hfptr (by decide) rfl hfill), rfl, ?_⟩
  intro p hran
  have hfinds : finds (found.map .find ++ [.fill ()] : List (Label Unit 64)) = found := by
    simp [finds, List.filterMap_map, Function.comp_def, Label.find?]
  rw [hfinds] at hran
  obtain ⟨t, hmem⟩ := hran
  simpa using hlabels _ hmem

theorem one_file_unused : ∃ labels s m, Run (Step oneConfig) oneInitial labels s ∧
    s.returned () = some (.ok (), m) ∧ s.file.fd = AtomicCell.Cell.new UseFile.fdUninit := by
  obtain ⟨labels, s, m, hrun, hreturned, hran⟩ := one_fills
  have hfound : ∀ p, RacyInit.Ran (finds labels) p → ¬ FallsBack oneConfig.target p := by
    intro p hp
    rw [hran p hp, ← initGetrandomFn_eq_iff]
    decide
  exact ⟨labels, s, m, hrun, hreturned, (file_unused (by decide) one_initial hrun hfound).2.1⟩

end DevenvTemplate.LinuxAndroid
