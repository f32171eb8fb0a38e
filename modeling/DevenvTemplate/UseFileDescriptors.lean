import DevenvTemplate.UseFileLock

/-!
# The descriptors

Which descriptors are open for `/dev/urandom` and `/dev/random`, and who knows of them
(`Descriptors`): `FD` and the calls have descriptors that are open, and each that is open
is had by somebody.
-/

namespace DevenvTemplate.UseFile

open ByteMemory Getrandom UtilLibc AtomicCell LabelledRuns

variable {Thread : Type}

/-! ### What a call holds -/

/-- The descriptor that a call has for `/dev/urandom`. -/
def Pc.given : Pc → Option I32
  | .store (.ok fd) | .wake (.ok fd) | .read fd _ => some fd
  | _ => none

/-- The descriptor that a call has for `/dev/random`. -/
def Pc.polled : Pc → Option I32
  | .poll random | .close random _ => some random
  | _ => none

section Next

variable {linux : Bool} {dest : Slice} {pc pc' : Pc} {event : Event} {fd : I32}

/-- A call has its descriptor from before, or from the `open` of the file, or from `FD`. -/
theorem next_given (h : pc.next linux dest event = some pc') (hgiven : pc'.given = some fd) :
    (pc.given = some fd ∧ (pc = .store (.ok fd) → event = .stored)) ∨
      ((∃ errno, event = .opened .urandom fd errno) ∧ pc' = .store (.ok fd) ∧ 0 ≤ fd.val) ∨
      (event = .loaded fd ∧ fd ≠ fdUninit ∧ fd ≠ fdOngoingInit) := by
  cases next_moves h with
  | isOpen huninit hongoing | wasOpened huninit hongoing =>
    cases hgiven
    exact Or.inr (Or.inr ⟨rfl, huninit, hongoing⟩)
  | fileOpened _ hfd =>
    cases hgiven
    exact Or.inr (Or.inl ⟨⟨_, rfl⟩, rfl, hfd⟩)
  | @stored res =>
    cases res with
    | ok fd => exact Or.inl ⟨hgiven, fun _ => rfl⟩
    | error err => contradiction
  | storedOther => exact Or.inl ⟨hgiven, fun _ => rfl⟩
  | woke | read => exact Or.inl ⟨hgiven, nofun⟩
  | _ => contradiction

/-- A call has `/dev/random` open from its `open` to its `close`. -/
theorem next_polled (h : pc.next linux dest event = some pc') :
    (pc'.polled = pc.polled ∧ event ≠ .closed) ∨
      (∃ random errno, event = .opened .random random errno ∧ pc.polled = none ∧
        0 ≤ random.val ∧ pc'.polled = some random) ∨
      (event = .closed ∧ pc'.polled = none) := by
  cases next_moves h with
  | randomOpened _ hfd => exact Or.inr (Or.inl ⟨_, _, rfl, rfl, hfd, rfl⟩)
  | closed | closedFails => exact Or.inr (Or.inr ⟨rfl, rfl⟩)
  | _ => exact Or.inl ⟨rfl, nofun⟩

end Next

/-! ### The invariant -/

structure Descriptors (s : State Thread) (mode : Mode Thread) : Prop where
  queued : Queued s
  inMode : InMode s mode
  /-- `FD` holds an open descriptor, and says so to whoever acquires it. -/
  latest : ∀ fd, mode = .opened fd → s.files fd = some .urandom ∧ fd ∈ s.fd.latest.released
  /-- So does a call. -/
  given : ∀ t fd, (s.call t).pc.given = some fd →
    s.files fd = some .urandom ∧ fd ∈ (s.call t).view.knows
  stored : ∀ t fd, (s.call t).pc.given = some fd →
    mode = .opened fd ∨ (s.call t).pc = .store (.ok fd)
  polled : ∀ t random, (s.call t).pc.polled = some random → s.files random = some .random
  /-- Nothing is lost. -/
  urandom : ∀ fd, s.files fd = some .urandom →
    mode = .opened fd ∨ ∃ t, (s.call t).pc = .store (.ok fd)
  random : ∀ random, s.files random = some .random → ∃ t, (s.call t).pc.polled = some random

section Steps

variable [DecidableEq Thread] {cfg : Config Thread} {s s' : State Thread} {mode : Mode Thread}

/-! ### The table -/

/-- A step opens a free descriptor, or closes one of `/dev/random` or of somebody else. -/
theorem step_files {label : Label Thread} (hs : Descriptors s mode) (h : Step cfg s label s') :
    s'.files = s.files ∨
      (∃ fd file, s.files fd = none ∧ s'.files = Function.update s.files fd (some file)) ∨
      ∃ fd, (s.files fd = some .random ∨ s.files fd = some .other) ∧
        s'.files = Function.update s.files fd none := by
  cases h with
  | @opens t file fd errno pc hfree hnext =>
    by_cases hfd : 0 ≤ fd.val
    · exact Or.inr (Or.inl ⟨fd, file, hfree hfd, if_pos hfd⟩)
    · exact Or.inl (if_neg hfd)
  | @closes t random res pc hpc =>
    have hpolled : (s.call t).pc.polled = some random := by
      rw [hpc]
      rfl
    exact Or.inr (Or.inr ⟨random, Or.inl (hs.polled t random hpolled), rfl⟩)
  | otherOpens hfree => exact Or.inr (Or.inl ⟨_, _, hfree, rfl⟩)
  | otherCloses hother => exact Or.inr (Or.inr ⟨_, Or.inr hother, rfl⟩)
  | _ => exact Or.inl rfl

/-- The file stays open. -/
theorem urandom_stays {label : Label Thread} {fd : I32} (hs : Descriptors s mode)
    (h : Step cfg s label s') (hfd : s.files fd = some .urandom) : s'.files fd = some .urandom := by
  rcases step_files hs h with heq | ⟨fd', file, hfree, heq⟩ | ⟨fd', hclosed, heq⟩
  · rw [heq]
    exact hfd
  · have hne : fd ≠ fd' := by
      intro hsame
      rw [hsame, hfree] at hfd
      simp at hfd
    rw [heq, Function.update_of_ne hne]
    exact hfd
  · have hne : fd ≠ fd' := by
      intro hsame
      rw [hsame] at hfd
      rcases hclosed with hclosed | hclosed
      all_goals
        rw [hclosed] at hfd
        simp at hfd
    rw [heq, Function.update_of_ne hne]
    exact hfd

theorem knows_setCall {t : Thread} {c : Call} (h : (s.call t).view.knows ⊆ c.view.knows)
    (u : Thread) : (s.call u).view.knows ⊆ ((s.setCall t c).call u).view.knows := by
  rw [setCall_call]
  split
  · rename_i hu
    rw [hu]
    exact h
  · exact Finset.Subset.refl _

/-- No call forgets what it knows. -/
theorem knows_stays {label : Label Thread} (h : Step cfg s label s') (u : Thread) :
    (s.call u).view.knows ⊆ (s'.call u).view.knows := by
  cases h with
  | load hload => exact knows_setCall (Cell.knows_le_of_load hload) u
  | exchange hexchange => exact knows_setCall (s := s) (Cell.knows_le_of_exchange hexchange) u
  | exchangeFails hload => exact knows_setCall (Cell.knows_le_of_load hload) u
  | @opens t file fd errno pc =>
    apply knows_setCall (s := s)
    simp only [knowsOpened]
    split
    · exact Finset.subset_insert _ _
    · exact Finset.Subset.refl _
  | wakes =>
    have hwoken : (s.wakeAll.call u).view = (s.call u).view := wakeAll_view s u
    rw [← hwoken]
    refine knows_setCall ?_ u
    exact Finset.Subset.refl _
  | otherOpens => exact Finset.Subset.refl _
  | otherCloses => exact Finset.Subset.refl _
  | _ =>
    refine knows_setCall (s := s) ?_ u
    exact Finset.Subset.refl _

/-! ### The mode -/

/-- What a step to a mode says of descriptors: one that is opened stays, and one that comes
    is stored by a call that has it. -/
structure Opens (s : State Thread) (mode : Mode Thread) (label : Label Thread)
    (s' : State Thread) (mode' : Mode Thread) : Prop where
  stays : ∀ fd, mode = .opened fd → mode' = .opened fd
  stored : ∀ t fd retry, label = .call t .stored retry → (s.call t).pc = .store (.ok fd) →
    mode' = .opened fd
  comes : ∀ fd, mode' = .opened fd → (mode = .opened fd ∧ s'.fd = s.fd) ∨
    ∃ t, (s.call t).pc = .store (.ok fd) ∧ s'.fd.latest = ⟨fd, (s.call t).view.knows⟩

theorem mode_step {label : Label Thread} (hq : Queued s) (hs : InMode s mode)
    (h : Step cfg s label s') : ∃ mode', InMode s' mode' ∧ Opens s mode label s' mode' := by
  cases label with
  | other =>
    obtain ⟨hfd, hcall, _⟩ := step_other h
    refine ⟨mode, inMode_of_same hs h hfd ?_, fun fd heq => heq, ?_, ?_⟩
    · intro u
      rw [hcall]
    · intro t fd retry hlabel
      simp at hlabel
    · intro fd heq
      exact Or.inl ⟨heq, hfd⟩
  | call t event retry =>
    by_cases hexchanged : event = .exchanged
    · subst hexchanged
      obtain ⟨hmode, hs'⟩ := inMode_exchanged hq hs h
      refine ⟨_, hs', ?_, ?_, ?_⟩
      · intro fd heq
        rw [hmode] at heq
        simp at heq
      · intro t' fd retry' hlabel
        simp at hlabel
      · intro fd heq
        simp at heq
    · by_cases hstored : event = .stored
      · subst hstored
        obtain ⟨res, hpc, _, hlatest⟩ := step_stored h
        obtain ⟨hmode, _⟩ := nobody_opening_of_stored hq hs h
        refine ⟨_, inMode_stored hq hs h hpc, ?_, ?_, ?_⟩
        · intro fd heq
          rw [hmode] at heq
          simp at heq
        · intro t' fd retry' hlabel hpc'
          cases hlabel
          rw [hpc] at hpc'
          cases hpc'
          rfl
        · intro fd heq
          cases res with
          | ok fd' =>
            cases heq
            exact Or.inr ⟨t, hpc, hlatest⟩
          | error err => contradiction
      · have hfd := step_fd h hexchanged hstored
        refine ⟨mode, inMode_of_same hs h hfd (opening_of_other hq h hexchanged hstored),
          fun fd heq => heq, ?_, fun fd heq => Or.inl ⟨heq, hfd⟩⟩
        intro t' fd retry' hlabel
        cases hlabel
        exact absurd rfl hstored

/-! ### The invariant, field by field -/

theorem pc_of_ne {t u : Thread} {event : Event} {retry : Bool}
    (h : Step cfg s (.call t event retry) s') (hu : u ≠ t) :
    (s'.call u).pc = (s.call u).pc ∨ (s'.call u).pc = .openOrWait := by
  rw [(step_pc h).2 u hu]
  split
  · exact Or.inr rfl
  · exact Or.inl rfl

/-- A descriptor in `FD` is the latest value. -/
theorem opened_of_loaded {t : Thread} {fd : I32} {retry : Bool} (hs : Descriptors s mode)
    (h : Step cfg s (.call t (.loaded fd) retry) s') (huninit : fd ≠ fdUninit)
    (hongoing : fd ≠ fdOngoingInit) : mode = .opened fd ∧ fd ∈ (s'.call t).view.knows := by
  cases h with
  | load hload =>
    rcases Cell.released_le_of_acquire rfl hload with ⟨m, hm, hvalue, _, hknows⟩
    rcases Cell.mem_messages.mp hm with hm | rfl
    · rcases hs.inMode.earlier m hm with hm | hm
      · exact absurd (hvalue.symm.trans hm) huninit
      · exact absurd (hvalue.symm.trans hm) hongoing
    · have hmode : mode = .opened fd := by
        have heq := hs.inMode.value.symm.trans hvalue
        cases mode with
        | closed => exact absurd heq.symm huninit
        | opening u => exact absurd heq.symm hongoing
        | opened fd' => exact congrArg Mode.opened heq
      refine ⟨hmode, ?_⟩
      rw [setCall_call, if_pos rfl]
      exact hknows (hs.latest fd hmode).2

theorem step_opened_file {t : Thread} {fd errno : I32} {retry : Bool}
    (h : Step cfg s (.call t (.opened .urandom fd errno) retry) s') (hfd : 0 ≤ fd.val) :
    s'.files fd = some .urandom ∧ fd ∈ (s'.call t).view.knows := by
  cases h with
  | opens =>
    rw [setCall_call, if_pos rfl]
    simp only [setCall_files, filesOpened, knowsOpened, hfd, and_self, if_true]
    exact ⟨Function.update_self _ _ _, Finset.mem_insert_self _ _⟩

theorem given_step {label : Label Thread} (hs : Descriptors s mode) (h : Step cfg s label s') :
    ∀ u fd, (s'.call u).pc.given = some fd →
      s'.files fd = some .urandom ∧ fd ∈ (s'.call u).view.knows := by
  intro u fd hgiven
  have hold : (s.call u).pc.given = some fd →
      s'.files fd = some .urandom ∧ fd ∈ (s'.call u).view.knows := by
    intro hold
    obtain ⟨hfile, hknows⟩ := hs.given u fd hold
    exact ⟨urandom_stays hs h hfile, knows_stays h u hknows⟩
  cases label with
  | other =>
    rw [(step_other h).2.1] at hgiven
    exact hold hgiven
  | call t event retry =>
    by_cases hu : u = t
    · subst hu
      rcases next_given (step_pc h).1 hgiven with
        ⟨hgiven, _⟩ | ⟨⟨errno, rfl⟩, _, hfd⟩ | ⟨rfl, huninit, hongoing⟩
      · exact hold hgiven
      · exact step_opened_file h hfd
      · obtain ⟨hmode, hknows⟩ := opened_of_loaded hs h huninit hongoing
        exact ⟨urandom_stays hs h (hs.latest fd hmode).1, hknows⟩
    · rcases pc_of_ne h hu with hpc | hpc
      · rw [hpc] at hgiven
        exact hold hgiven
      · rw [hpc] at hgiven
        contradiction

theorem stored_step {label : Label Thread} {mode' : Mode Thread} (hs : Descriptors s mode)
    (h : Step cfg s label s') (hmode : Opens s mode label s' mode') :
    ∀ u fd, (s'.call u).pc.given = some fd →
      mode' = .opened fd ∨ (s'.call u).pc = .store (.ok fd) := by
  intro u fd hgiven
  cases label with
  | other =>
    rw [(step_other h).2.1] at hgiven ⊢
    exact (hs.stored u fd hgiven).imp (hmode.stays fd) id
  | call t event retry =>
    by_cases hu : u = t
    · subst hu
      rcases next_given (step_pc h).1 hgiven with
        ⟨hgiven, hevent⟩ | ⟨_, hpc', _⟩ | ⟨rfl, huninit, hongoing⟩
      · rcases hs.stored u fd hgiven with hopened | hpc
        · exact Or.inl (hmode.stays fd hopened)
        · have hlabel := hevent hpc
          subst hlabel
          exact Or.inl (hmode.stored u fd retry rfl hpc)
      · exact Or.inr hpc'
      · exact Or.inl (hmode.stays fd (opened_of_loaded hs h huninit hongoing).1)
    · rcases pc_of_ne h hu with hpc | hpc
      · rw [hpc] at hgiven ⊢
        exact (hs.stored u fd hgiven).imp (hmode.stays fd) id
      · rw [hpc] at hgiven
        contradiction

theorem latest_step {label : Label Thread} {mode' : Mode Thread} (hs : Descriptors s mode)
    (h : Step cfg s label s') (hmode : Opens s mode label s' mode') :
    ∀ fd, mode' = .opened fd → s'.files fd = some .urandom ∧ fd ∈ s'.fd.latest.released := by
  intro fd hopened
  rcases hmode.comes fd hopened with ⟨hold, hfd⟩ | ⟨t, hpc, hlatest⟩
  · obtain ⟨hfile, hknows⟩ := hs.latest fd hold
    rw [hfd]
    exact ⟨urandom_stays hs h hfile, hknows⟩
  · obtain ⟨hfile, hknows⟩ := hs.given t fd (by rw [hpc]; rfl)
    rw [hlatest]
    exact ⟨urandom_stays hs h hfile, hknows⟩

theorem role_of_polled {pc : Pc} {fd : I32} (h : pc.polled = some fd) : pc.role = .opening := by
  cases pc with
  | poll | close => rfl
  | _ => contradiction

omit [DecidableEq Thread] in
/-- The call that opens is one, so that only one has `/dev/random` open. -/
theorem polled_unique {t u : Thread} {fd fd' : I32} (hs : Descriptors s mode)
    (ht : (s.call t).pc.polled = some fd) (hu : (s.call u).pc.polled = some fd') : t = u := by
  have hmode := (hs.inMode.opening t).mp (role_of_polled ht)
  rw [(hs.inMode.opening u).mp (role_of_polled hu)] at hmode
  cases hmode
  rfl

/-- `/dev/random` is only closed by the call that has it open. -/
theorem random_stays {t : Thread} {event : Event} {retry : Bool} {random : I32}
    (h : Step cfg s (.call t event retry) s') (hrandom : s.files random = some .random)
    (hclosed : event = .closed → (s.call t).pc.polled ≠ some random) :
    s'.files random = some .random := by
  cases h with
  | @opens t file fd errno pc hfree =>
    simp only [setCall_files, filesOpened]
    split
    · rename_i hfd
      have hne : random ≠ fd := by
        intro hsame
        rw [hsame, hfree hfd] at hrandom
        simp at hrandom
      rw [Function.update_of_ne hne]
      exact hrandom
    · exact hrandom
  | @closes t fd res pc hpc =>
    have hne : random ≠ fd := by
      intro hsame
      rw [hpc, hsame] at hclosed
      exact hclosed rfl rfl
    exact (Function.update_of_ne hne _ _).trans hrandom
  | _ => exact hrandom

theorem polled_step {label : Label Thread} (hs : Descriptors s mode) (h : Step cfg s label s') :
    ∀ u random, (s'.call u).pc.polled = some random → s'.files random = some .random := by
  intro u random hpolled
  cases label with
  | other =>
    rw [(step_other h).2.1] at hpolled
    have hrandom := hs.polled u random hpolled
    cases h with
    | otherOpens hfree =>
      refine (Function.update_of_ne ?_ _ _).trans hrandom
      intro hsame
      rw [hsame, hfree] at hrandom
      simp at hrandom
    | otherCloses hother =>
      refine (Function.update_of_ne ?_ _ _).trans hrandom
      intro hsame
      rw [hsame, hother] at hrandom
      simp at hrandom
  | call t event retry =>
    by_cases hu : u = t
    · subst hu
      rcases next_polled (step_pc h).1 with
        ⟨hsame, hevent⟩ | ⟨fd, errno, rfl, _, hfd, hpolled'⟩ | ⟨_, hnone⟩
      · rw [hsame] at hpolled
        exact random_stays h (hs.polled u random hpolled) (fun hclosed => absurd hclosed hevent)
      · rw [hpolled] at hpolled'
        cases hpolled'
        cases h with
        | opens =>
          simp only [setCall_files, filesOpened, hfd, if_true]
          exact Function.update_self _ _ _
      · rw [hnone] at hpolled
        simp at hpolled
    · rcases pc_of_ne h hu with hpc | hpc
      · rw [hpc] at hpolled
        apply random_stays h (hs.polled u random hpolled)
        intro _ ht
        exact hu (polled_unique hs hpolled ht)
      · rw [hpc] at hpolled
        contradiction

/-! ### Nothing is lost -/

/-- A file that is open after a step was so before, or the step opened it. -/
theorem file_cases {label : Label Thread} {fd : I32} {file : File} (h : Step cfg s label s')
    (hfile : s'.files fd = some file) : s.files fd = some file ∨ file = .other ∨
      ∃ t errno retry, label = .call t (.opened file fd errno) retry ∧ 0 ≤ fd.val := by
  cases h with
  | @opens t file' fd' errno pc hfree =>
    simp only [setCall_files, filesOpened] at hfile
    split at hfile
    · rename_i hfd'
      by_cases hsame : fd = fd'
      · subst hsame
        rw [Function.update_self] at hfile
        cases hfile
        exact Or.inr (Or.inr ⟨t, errno, _, rfl, hfd'⟩)
      · rw [Function.update_of_ne hsame] at hfile
        exact Or.inl hfile
    · exact Or.inl hfile
  | @closes t fd' res pc hpc =>
    have hupdate : Function.update s.files fd' none fd = some file := hfile
    rw [Function.update_apply] at hupdate
    split at hupdate
    · simp at hupdate
    · exact Or.inl hupdate
  | @otherOpens fd' hfree =>
    simp only [Function.update_apply] at hfile
    split at hfile
    · cases hfile
      exact Or.inr (Or.inl rfl)
    · exact Or.inl hfile
  | @otherCloses fd' hother =>
    simp only [Function.update_apply] at hfile
    split at hfile
    · simp at hfile
    · exact Or.inl hfile
  | _ => exact Or.inl hfile

/-- The call that opens the file goes on where it is while others work. -/
theorem pc_of_opening {t u : Thread} {event : Event} {retry : Bool} (hq : Queued s)
    (h : Step cfg s (.call t event retry) s') (hu : u ≠ t)
    (hrole : (s.call u).pc.role = .opening) : (s'.call u).pc = (s.call u).pc := by
  rcases pc_of_ne h hu with hpc | hpc
  · exact hpc
  · have hrole' := (opening_of_ne hq h hu).mpr hrole
    rw [hpc] at hrole'
    contradiction

theorem urandom_step {label : Label Thread} {mode' : Mode Thread} (hs : Descriptors s mode)
    (h : Step cfg s label s') (hmode : Opens s mode label s' mode') :
    ∀ fd, s'.files fd = some .urandom →
      mode' = .opened fd ∨ ∃ u, (s'.call u).pc = .store (.ok fd) := by
  intro fd hfile
  rcases file_cases h hfile with hold | hother | ⟨t, errno, retry, rfl, hfd⟩
  · rcases hs.urandom fd hold with hopened | ⟨u, hpc⟩
    · exact Or.inl (hmode.stays fd hopened)
    · cases label with
      | other =>
        refine Or.inr ⟨u, ?_⟩
        rw [(step_other h).2.1]
        exact hpc
      | call t event retry =>
        by_cases hu : u = t
        · subst hu
          have hnext := (step_pc h).1
          rw [hpc] at hnext
          generalize (s'.call u).pc = pc' at hnext
          have hevent : event = .stored := by
            cases next_moves hnext with
            | _ => rfl
          subst hevent
          exact Or.inl (hmode.stored u fd retry rfl hpc)
        · refine Or.inr ⟨u, (pc_of_opening hs.queued h hu ?_).trans hpc⟩
          rw [hpc]
          rfl
  · simp at hother
  · have hnext := (step_pc h).1
    refine Or.inr ⟨t, ?_⟩
    generalize (s.call t).pc = pc at hnext
    generalize (s'.call t).pc = pc' at hnext ⊢
    cases next_moves hnext with
    | fileOpened => rfl
    | fileAgain hturn | fileFails hturn =>
      rw [openReadonlyTurn, if_pos hfd] at hturn
      simp at hturn

theorem random_step {label : Label Thread} (hs : Descriptors s mode) (h : Step cfg s label s') :
    ∀ random, s'.files random = some .random → ∃ u, (s'.call u).pc.polled = some random := by
  intro random hfile
  rcases file_cases h hfile with hold | hother | ⟨t, errno, retry, rfl, hfd⟩
  · rcases hs.random random hold with ⟨u, hpolled⟩
    refine ⟨u, ?_⟩
    cases label with
    | other =>
      rw [(step_other h).2.1]
      exact hpolled
    | call t event retry =>
      by_cases hu : u = t
      · subst hu
        rcases next_polled (step_pc h).1 with
          ⟨hsame, _⟩ | ⟨fd, errno, _, hnone, _, _⟩ | ⟨rfl, _⟩
        · rw [hsame]
          exact hpolled
        · rw [hnone] at hpolled
          simp at hpolled
        · cases h with
          | closes hpc =>
            rw [hpc] at hpolled
            cases hpolled
            have hnone : Function.update s.files random none random = some .random := hfile
            rw [Function.update_self] at hnone
            simp at hnone
      · rw [pc_of_opening hs.queued h hu (role_of_polled hpolled)]
        exact hpolled
  · simp at hother
  · have hnext := (step_pc h).1
    refine ⟨t, ?_⟩
    generalize (s.call t).pc = pc at hnext
    generalize (s'.call t).pc = pc' at hnext ⊢
    cases next_moves hnext with
    | randomOpened => rfl
    | randomAgain hturn | randomFails hturn =>
      rw [openReadonlyTurn, if_pos hfd] at hturn
      simp at hturn

theorem descriptors_step {label : Label Thread} (hs : Descriptors s mode)
    (h : Step cfg s label s') : ∃ mode', Descriptors s' mode' := by
  obtain ⟨mode', hs', hmode⟩ := mode_step hs.queued hs.inMode h
  exact ⟨mode', queued_step hs.queued h, hs', latest_step hs h hmode, given_step hs h,
    stored_step hs h hmode, polled_step hs h, urandom_step hs h hmode, random_step hs h⟩

omit [DecidableEq Thread] in
theorem descriptors_initial (hs : Initial s) : Descriptors s .closed := by
  have hrole : ∀ t, (s.call t).pc.role = .running := by
    intro t
    rw [hs.pc t]
    rfl
  refine ⟨?_, ⟨?_, ?_, ?_, ?_, ?_⟩, ?_, ?_, ?_, ?_, ?_, ?_⟩
  · intro u
    rw [hs.waiters, hrole u]
    simp
  · rw [hs.fd]
    rfl
  · intro t
    rw [hrole t]
    exact ⟨nofun, nofun⟩
  · intro fd heq
    simp at heq
  · intro m hm
    rw [hs.fd] at hm
    contradiction
  · intro t fd hpc
    rw [hs.pc t] at hpc
    simp at hpc
  · intro fd heq
    simp at heq
  · intro t fd hgiven
    rw [hs.pc t] at hgiven
    contradiction
  · intro t fd hgiven
    rw [hs.pc t] at hgiven
    contradiction
  · intro t fd hpolled
    rw [hs.pc t] at hpolled
    contradiction
  · intro fd hfile
    rcases hs.files fd with hnone | hother
    · rw [hnone] at hfile
      simp at hfile
    · rw [hother] at hfile
      simp at hfile
  · intro fd hfile
    rcases hs.files fd with hnone | hother
    · rw [hnone] at hfile
      simp at hfile
    · rw [hother] at hfile
      simp at hfile

theorem descriptors_reachable (hs : Reachable cfg s) : ∃ mode, Descriptors s mode := by
  rcases hs with ⟨s₀, labels, hinitial, hrun⟩
  refine hrun.invariant (I := fun s => ∃ mode, Descriptors s mode) ?_ ⟨_, descriptors_initial hinitial⟩
  intro s label s' ⟨mode, hs⟩ h
  exact descriptors_step hs h

end Steps

end DevenvTemplate.UseFile
