import DevenvTemplate.UseFile

/-!
# One call opens the file

`FD` is a lock and the result of what it protects at once.  `Mode` is what it stands
for, with the call that holds the lock; `inMode_step` is that the code refines it.  The
file is opened by one call at a time, and once it is open it stays as it is.
-/

namespace DevenvTemplate.UseFile

open ByteMemory Getrandom UtilLibc AtomicCell LabelledRuns

variable {Thread : Type}

/-! ### The resource behind `FD` -/

inductive Mode (Thread : Type) where
  | closed
  | opening (t : Thread)
  | opened (fd : I32)

def Mode.value : Mode Thread → I32
  | .closed => fdUninit
  | .opening _ => fdOngoingInit
  | .opened fd => fd

/-- The mode after a store. -/
def Mode.stored : Except Error I32 → Mode Thread
  | .ok fd => .opened fd
  | .error _ => .closed

/-- What can become of the resource: a call begins to open it, and fails or finishes. -/
inductive ModeStep : Mode Thread → Mode Thread → Prop
  | begin (t : Thread) : ModeStep .closed (.opening t)
  | fail (t : Thread) : ModeStep (.opening t) .closed
  | finish (t : Thread) (fd : I32) (hfd : 0 ≤ fd.val) : ModeStep (.opening t) (.opened fd)

/-- `FD` and the calls agree with a mode. -/
structure InMode (s : State Thread) (mode : Mode Thread) : Prop where
  value : s.fd.latest.value = mode.value
  opening : ∀ t, (s.call t).pc.role = .opening ↔ mode = .opening t
  nonneg : ∀ fd, mode = .opened fd → 0 ≤ fd.val
  /-- A descriptor is never replaced. -/
  earlier : ∀ m ∈ s.fd.earlier, m.value = fdUninit ∨ m.value = fdOngoingInit
  storing : ∀ t fd, (s.call t).pc = .store (.ok fd) → 0 ≤ fd.val

/-- The queue of the futex is the calls that sleep. -/
def Queued (s : State Thread) : Prop := ∀ u, u ∈ s.waiters ↔ (s.call u).pc.role = .asleep

section Steps

variable [DecidableEq Thread] {cfg : Config Thread} {s s' : State Thread}

/-! ### Steps and the queue -/

theorem role_of_ne {t u : Thread} {event : Event} {retry : Bool}
    (h : Step cfg s (.call t event retry) s') (hu : u ≠ t) :
    (s'.call u).pc.role = if event.wakesAll = true ∧ u ∈ s.waiters then .running
      else (s.call u).pc.role := by
  rw [(step_pc h).2 u hu]
  split
  · rfl
  · rfl

theorem queued_step {label : Label Thread} (hs : Queued s) (h : Step cfg s label s') :
    Queued s' := by
  cases label with
  | other =>
    obtain ⟨_, hcall, hwaiters⟩ := step_other h
    intro u
    rw [hcall, hwaiters]
    exact hs u
  | call t event retry =>
    have hnext := (step_pc h).1
    intro u
    rw [step_waiters h]
    by_cases hu : u = t
    · subst hu
      cases hturns : event.turns with
      | some roles =>
        have hroles := next_role_of_turns hnext hturns
        rw [hroles.2]
        cases event with
        | futexSleeps =>
          cases hturns
          simp
        | woken =>
          cases hturns
          simp
        | exchanged =>
          cases hturns
          simp [hs u, hroles.1]
        | stored =>
          cases hturns
          simp [hs u, hroles.1]
        | _ => contradiction
      | none =>
        have hroles := next_role hnext hturns
        have hnot : u ∉ s.waiters := fun hmem => hroles.2 ((hs u).mp hmem)
        rw [hroles.1]
        cases event with
        | futexSleeps => contradiction
        | woken => contradiction
        | _ => simp [hnot, hroles.2]
    · rw [role_of_ne h hu]
      cases event with
      | futexSleeps => simp [hu, hs u, Event.wakesAll]
      | woken => simp [hu, hs u, Event.wakesAll]
      | woke =>
        by_cases hmem : u ∈ s.waiters
        · simp [hmem, Event.wakesAll]
        · have hrole := (hs u).not.mp hmem
          simp [hmem, hrole]
      | _ => simp [hs u, Event.wakesAll]

/-- No step makes another call the one that opens, or ends that. -/
theorem opening_of_ne {t u : Thread} {event : Event} {retry : Bool} (hs : Queued s)
    (h : Step cfg s (.call t event retry) s') (hu : u ≠ t) :
    (s'.call u).pc.role = .opening ↔ (s.call u).pc.role = .opening := by
  rw [role_of_ne h hu]
  split
  · rename_i hwoken
    rw [(hs u).mp hwoken.2]
    decide
  · exact Iff.rfl

omit [DecidableEq Thread] in
/-- A descriptor to store comes from the `open` of the file. -/
theorem next_store_ok {linux : Bool} {dest : Slice} {pc : Pc} {event : Event} {fd : I32}
    (h : pc.next linux dest event = some (.store (.ok fd))) :
    pc = .openFile ∧ 0 ≤ fd.val ∧ ∃ errno, event = .opened .urandom fd errno := by
  cases next_moves h with
  | fileOpened _ hfd => exact ⟨rfl, hfd, _, rfl⟩

theorem storing_step {label : Label Thread}
    (hs : ∀ t fd, (s.call t).pc = .store (.ok fd) → 0 ≤ fd.val) (h : Step cfg s label s') :
    ∀ t fd, (s'.call t).pc = .store (.ok fd) → 0 ≤ fd.val := by
  intro u fd hpc
  cases label with
  | other =>
    rw [(step_other h).2.1] at hpc
    exact hs u fd hpc
  | call t event retry =>
    by_cases hu : u = t
    · subst hu
      have hnext := (step_pc h).1
      rw [hpc] at hnext
      exact (next_store_ok hnext).2.1
    · rw [(step_pc h).2 u hu] at hpc
      split at hpc
      · simp at hpc
      · exact hs u fd hpc

/-! ### The refinement -/

omit [DecidableEq Thread] in
theorem mode_of_uninit {mode : Mode Thread} (hs : InMode s mode)
    (hvalue : s.fd.latest.value = fdUninit) : mode = .closed := by
  have heq := hs.value.symm.trans hvalue
  cases mode with
  | closed => rfl
  | opening t => cases heq
  | opened fd =>
    have hfd := hs.nonneg fd rfl
    have hval : fd = fdUninit := heq
    rw [hval] at hfd
    exact absurd hfd (by decide)

omit [DecidableEq Thread] in
theorem opening_of_ongoing {mode : Mode Thread} (hs : InMode s mode)
    (hvalue : s.fd.latest.value = fdOngoingInit) : ∃ t, (s.call t).pc.role = .opening := by
  have heq := hs.value.symm.trans hvalue
  cases mode with
  | closed => cases heq
  | opening t => exact ⟨t, (hs.opening t).mpr rfl⟩
  | opened fd =>
    have hfd := hs.nonneg fd rfl
    have hval : fd = fdOngoingInit := heq
    rw [hval] at hfd
    exact absurd hfd (by decide)

omit [DecidableEq Thread] in
/-- A value that is replaced is no descriptor. -/
theorem earlier_of_messages {mode : Mode Thread} (hs : InMode s mode)
    (hvalue : s.fd.latest.value = fdUninit ∨ s.fd.latest.value = fdOngoingInit) :
    ∀ m ∈ s.fd.messages, m.value = fdUninit ∨ m.value = fdOngoingInit := by
  intro m hm
  rcases Cell.mem_messages.mp hm with hm | rfl
  · exact hs.earlier m hm
  · exact hvalue

/-- The exchange found the variable uninitialised, so nobody was opening the file. -/
theorem inMode_exchanged {mode : Mode Thread} {t : Thread} {retry : Bool} (hq : Queued s)
    (hs : InMode s mode) (h : Step cfg s (.call t .exchanged retry) s') :
    mode = .closed ∧ InMode s' (.opening t) := by
  obtain ⟨huninit, hearlier, hlatest⟩ := step_exchanged h
  have hmode := mode_of_uninit hs huninit
  have hrole := (next_role_of_turns (step_pc h).1 rfl).2
  refine ⟨hmode, hlatest, ?_, ?_, ?_, storing_step hs.storing h⟩
  · intro u
    by_cases hu : u = t
    · subst hu
      exact ⟨fun _ => rfl, fun _ => hrole⟩
    · rw [opening_of_ne hq h hu, hs.opening u, hmode]
      constructor
      · intro heq
        simp at heq
      · intro heq
        cases heq
        exact absurd rfl hu
  · intro fd heq
    cases heq
  · rw [hearlier]
    exact earlier_of_messages hs (Or.inl huninit)

theorem nobody_opening_of_stored {mode : Mode Thread} {t : Thread} {retry : Bool} (hq : Queued s)
    (hs : InMode s mode) (h : Step cfg s (.call t .stored retry) s') :
    mode = .opening t ∧ ∀ u, (s'.call u).pc.role ≠ .opening := by
  have hrole := next_role_of_turns (step_pc h).1 rfl
  have hmode := (hs.opening t).mp hrole.1
  refine ⟨hmode, ?_⟩
  intro u
  by_cases hu : u = t
  · subst hu
    rw [hrole.2]
    decide
  · rw [ne_eq, opening_of_ne hq h hu, hs.opening u, hmode]
    intro heq
    cases heq
    exact hu rfl

/-- The store ends the attempt with what became of it. -/
theorem inMode_stored {mode : Mode Thread} {t : Thread} {retry : Bool} {res : Except Error I32}
    (hq : Queued s) (hs : InMode s mode) (h : Step cfg s (.call t .stored retry) s')
    (hpc : (s.call t).pc = .store res) : InMode s' (.stored res) := by
  obtain ⟨res', hpc', hearlier, hlatest⟩ := step_stored h
  rw [hpc] at hpc'
  cases hpc'
  obtain ⟨hmode, hnobody⟩ := nobody_opening_of_stored hq hs h
  have hvalue : s.fd.latest.value = fdOngoingInit := by
    rw [hs.value, hmode]
    rfl
  refine ⟨?_, ?_, ?_, ?_, storing_step hs.storing h⟩
  · rw [hlatest]
    cases res with
    | ok fd => rfl
    | error err => rfl
  · intro u
    refine ⟨fun hu => absurd hu (hnobody u), ?_⟩
    intro heq
    cases res with
    | ok fd => contradiction
    | error err => contradiction
  · intro fd heq
    cases res with
    | ok fd' =>
      cases heq
      exact hs.storing t fd hpc
    | error err => contradiction
  · rw [hearlier]
    exact earlier_of_messages hs (Or.inr hvalue)

/-- No other operation touches the variable, or which call opens the file. -/
theorem opening_of_other {t : Thread} {event : Event} {retry : Bool} (hq : Queued s)
    (h : Step cfg s (.call t event retry) s') (hexchanged : event ≠ .exchanged)
    (hstored : event ≠ .stored) (u : Thread) :
    (s'.call u).pc.role = .opening ↔ (s.call u).pc.role = .opening := by
  by_cases hu : u = t
  · subst hu
    cases hturns : event.turns with
    | none => rw [(next_role (step_pc h).1 hturns).1]
    | some roles =>
      have hroles := next_role_of_turns (step_pc h).1 hturns
      rw [hroles.1, hroles.2]
      cases event with
      | futexSleeps =>
        cases hturns
        decide
      | woken =>
        cases hturns
        decide
      | exchanged => exact absurd rfl hexchanged
      | stored => exact absurd rfl hstored
      | _ => contradiction
  · exact opening_of_ne hq h hu

theorem inMode_of_same {mode : Mode Thread} {label : Label Thread} (hs : InMode s mode)
    (h : Step cfg s label s') (hfd : s'.fd = s.fd)
    (hopening : ∀ u, (s'.call u).pc.role = .opening ↔ (s.call u).pc.role = .opening) :
    InMode s' mode := by
  refine ⟨?_, ?_, hs.nonneg, ?_, storing_step hs.storing h⟩
  · rw [hfd]
    exact hs.value
  · intro u
    rw [hopening u]
    exact hs.opening u
  · rw [hfd]
    exact hs.earlier

/-- **The code refines the resource.**  Every step leaves the variable and the mode as they
    are, or is a step of the resource and writes its value. -/
theorem inMode_step {mode : Mode Thread} {label : Label Thread} (hq : Queued s)
    (hs : InMode s mode) (h : Step cfg s label s') :
    ∃ mode', InMode s' mode' ∧ ((mode' = mode ∧ s'.fd = s.fd) ∨
      (ModeStep mode mode' ∧ s'.fd.earlier = s.fd.messages)) := by
  cases label with
  | other =>
    obtain ⟨hfd, hcall, _⟩ := step_other h
    refine ⟨mode, inMode_of_same hs h hfd ?_, Or.inl ⟨rfl, hfd⟩⟩
    intro u
    rw [hcall]
  | call t event retry =>
    by_cases hexchanged : event = .exchanged
    · subst hexchanged
      obtain ⟨hmode, hs'⟩ := inMode_exchanged hq hs h
      obtain ⟨_, hearlier, _⟩ := step_exchanged h
      exact ⟨_, hs', Or.inr ⟨hmode ▸ ModeStep.begin t, hearlier⟩⟩
    · by_cases hstored : event = .stored
      · subst hstored
        obtain ⟨res, hpc, hearlier, _⟩ := step_stored h
        obtain ⟨hmode, _⟩ := nobody_opening_of_stored hq hs h
        refine ⟨_, inMode_stored hq hs h hpc, Or.inr ⟨hmode ▸ ?_, hearlier⟩⟩
        cases res with
        | ok fd => exact ModeStep.finish t fd (hs.storing t fd hpc)
        | error err => exact ModeStep.fail t
      · have hfd := step_fd h hexchanged hstored
        have hopening := opening_of_other hq h hexchanged hstored
        exact ⟨mode, inMode_of_same hs h hfd hopening, Or.inl ⟨rfl, hfd⟩⟩

end Steps

end DevenvTemplate.UseFile
