import DevenvTemplate.UseFileDescriptors
import Mathlib.Data.List.Chain

/-!
# What the calls share

The results on `FD` and the descriptors, for every run from before the first call: the
calls refine a resource that one of them opens, every read is from a descriptor that was
opened for it, the file is opened once, and nothing stays open beside it.
-/

namespace DevenvTemplate.UseFile

open ByteMemory Getrandom UtilLibc AtomicCell LabelledRuns

/-! ### A call on its own -/

/-- One call, where there is no futex, for a buffer of one byte. -/
def soloConfig : Config Unit where
  linux := false
  dest _ := ⟨0, 1⟩

def soloInitial : State Unit where
  fd := Cell.new fdUninit
  call _ := ⟨.fillInner, ⟨0, ∅⟩, ⟨fun _ => none, []⟩⟩
  waiters := ∅
  files _ := none

theorem solo_initial : Initial soloInitial :=
  ⟨rfl, fun _ => rfl, fun _ => rfl, fun _ => rfl, rfl, fun _ => Or.inl rfl⟩

/-- It finds that the file is not open. -/
theorem solo_begins : ∃ labels s, Run (Step soloConfig) soloInitial labels s ∧
    (s.call ()).pc = .openFile ∧ ∀ fd, s.files fd = none :=
  have hload : soloInitial.fd.load .acquire ⟨0, ∅⟩ 0 = some (fdUninit, ⟨0, ∅⟩) := rfl
  ⟨_, _, Run.snoc (Run.snoc (Run.snoc Run.nil (Step.load (t := ()) hload rfl))
    (Step.load (t := ()) hload rfl)) (Step.exchange (t := ()) rfl rfl), rfl, fun _ => rfl⟩

/-- It opens the file and goes on to read. -/
theorem solo_opens (fd : I32) (hfd : 0 ≤ fd.val) :
    ∃ labels s, Run (Step soloConfig) soloInitial labels s ∧
      (s.call ()).pc = .read fd ⟨0, 1⟩ := by
  rcases solo_begins with ⟨labels, s, hrun, hpc, hfiles⟩
  have hnext : (s.call ()).pc.next soloConfig.linux (soloConfig.dest ()) (.opened .urandom fd eintr) =
      some (.store (.ok fd)) := by
    rw [hpc]
    simp only [Pc.next, openReadonlyTurn, if_pos hfd]
  have hopens := Step.opens (fun _ => hfiles fd) hnext
  exact ⟨_, _, Run.snoc (Run.snoc hrun hopens) (Step.stores (t := ()) rfl rfl), rfl⟩

section Runs

variable {Thread : Type} [DecidableEq Thread] {cfg : Config Thread} {s₀ s s' : State Thread}
  {labels : List (Label Thread)}

omit [DecidableEq Thread] in
theorem queued_initial (hs : Initial s) : Queued s := (descriptors_initial hs).queued

theorem queued_run (hs : Initial s₀) (hrun : Run (Step cfg) s₀ labels s) : Queued s :=
  hrun.invariant (fun _ _ _ hq h => queued_step hq h) (queued_initial hs)

/-! ### `FD` -/

/-- The values that the variable has had are those of a path of the resource to a mode. -/
structure Path (s : State Thread) (modes : List (Mode Thread)) (mode : Mode Thread) : Prop where
  begins : (modes ++ [mode]).head? = some .closed
  chain : (modes ++ [mode]).IsChain ModeStep
  values : s.fd.messages.map Message.value = (modes ++ [mode]).map Mode.value

theorem path_step {label : Label Thread} {modes : List (Mode Thread)} {mode : Mode Thread}
    (hq : Queued s) (hs : InMode s mode) (hpath : Path s modes mode) (h : Step cfg s label s') :
    ∃ modes' mode', InMode s' mode' ∧ Path s' modes' mode' := by
  rcases inMode_step hq hs h with ⟨mode', hs', ⟨rfl, hfd⟩ | ⟨hstep, hearlier⟩⟩
  · refine ⟨modes, mode', hs', hpath.begins, hpath.chain, ?_⟩
    rw [hfd]
    exact hpath.values
  · refine ⟨modes ++ [mode], mode', hs', ?_, ?_, ?_⟩
    · rw [List.head?_append, hpath.begins]
      rfl
    · rw [List.isChain_append]
      refine ⟨hpath.chain, List.isChain_singleton mode', ?_⟩
      simpa using hstep
    · rw [Cell.messages, List.map_append, hearlier, hpath.values, List.map_append]
      simp [hs'.value]

/-- **One call opens the file, and the others wait.**  After any run `FD` has gone through
    a path of the resource, and the call that opens is the one that the mode says. -/
theorem refines_resource (hs : Initial s₀) (hrun : Run (Step cfg) s₀ labels s) :
    ∃ modes mode, InMode s mode ∧ Path s modes mode := by
  induction hrun with
  | nil =>
    refine ⟨[], .closed, (descriptors_initial hs).inMode, rfl, List.isChain_singleton _, ?_⟩
    rw [hs.fd]
    rfl
  | snoc run step ih =>
    rcases ih with ⟨modes, mode, hs', hpath⟩
    exact path_step (queued_run hs run) hs' hpath step

theorem solo_refines_resource : ∃ (s : State Unit) (modes : List (Mode Unit)) (mode : Mode Unit),
    (s.call ()).pc = .read ⟨3, by decide⟩ ⟨0, 1⟩ ∧ InMode s mode ∧ Path s modes mode := by
  rcases solo_opens ⟨3, by decide⟩ (by decide) with ⟨_, s, hrun, hpc⟩
  obtain ⟨modes, mode, hmode, hpath⟩ := refines_resource solo_initial hrun
  exact ⟨s, modes, mode, hpc, hmode, hpath⟩

/-! ### Descriptors -/

/-- **Reads are from the file.**  A call reads from the descriptor in `FD`; it is open for
    `/dev/urandom`, and the `open` that returned it happened before. -/
theorem read_sound (hs : Reachable cfg s) {t : Thread} {fd : I32} {buf : Slice}
    (hpc : (s.call t).pc = .read fd buf) :
    s.files fd = some .urandom ∧ fd ∈ (s.call t).view.knows ∧ s.fd.latest.value = fd := by
  obtain ⟨mode, hdesc⟩ := descriptors_reachable hs
  have hgiven : (s.call t).pc.given = some fd := by
    rw [hpc]
    rfl
  obtain ⟨hfile, hknows⟩ := hdesc.given t fd hgiven
  refine ⟨hfile, hknows, ?_⟩
  rcases hdesc.stored t fd hgiven with hmode | hstore
  · rw [hdesc.inMode.value, hmode]
    rfl
  · rw [hpc] at hstore
    simp at hstore

theorem solo_read_sound : ∃ s : State Unit, Reachable soloConfig s ∧
    s.files ⟨3, by decide⟩ = some .urandom ∧ s.fd.latest.value = ⟨3, by decide⟩ := by
  rcases solo_opens ⟨3, by decide⟩ (by decide) with ⟨labels, s, hrun, hpc⟩
  have hs : Reachable soloConfig s := ⟨soloInitial, labels, solo_initial, hrun⟩
  obtain ⟨hfile, _, hvalue⟩ := read_sound hs hpc
  exact ⟨s, hs, hfile, hvalue⟩

/-- **Nothing stays open beside it.**  When no call is opening the file, `FD` holds the only
    descriptor for `/dev/urandom`, if there is one, and there is none for `/dev/random`. -/
theorem descriptors_held (hs : Reachable cfg s)
    (hopening : ∀ t, (s.call t).pc.role ≠ .opening) (fd : I32) :
    (s.files fd = some .urandom ↔ s.fd.latest.value = fd ∧ 0 ≤ fd.val) ∧
      s.files fd ≠ some .random := by
  obtain ⟨mode, hdesc⟩ := descriptors_reachable hs
  have hvalue := hdesc.inMode.value
  refine ⟨⟨?_, ?_⟩, ?_⟩
  · intro hfile
    rcases hdesc.urandom fd hfile with rfl | ⟨t, hpc⟩
    · exact ⟨hvalue, hdesc.inMode.nonneg fd rfl⟩
    · refine absurd ?_ (hopening t)
      rw [hpc]
      rfl
  · rintro ⟨hlatest, hfd⟩
    rw [hvalue] at hlatest
    cases mode with
    | closed =>
      have hsame : fdUninit = fd := hlatest
      rw [← hsame] at hfd
      exact absurd hfd (by decide)
    | opening t => exact absurd ((hdesc.inMode.opening t).mpr rfl) (hopening t)
    | opened fd' =>
      have hsame : fd' = fd := hlatest
      exact hsame ▸ (hdesc.latest fd' rfl).1
  · intro hfile
    obtain ⟨t, hpolled⟩ := hdesc.random fd hfile
    exact hopening t (role_of_polled hpolled)

theorem solo_descriptors_held : ∃ s : State Unit, Reachable soloConfig s ∧
    (s.call ()).pc = .read ⟨3, by decide⟩ ⟨0, 1⟩ ∧ ∀ fd, s.files fd ≠ some .random := by
  rcases solo_opens ⟨3, by decide⟩ (by decide) with ⟨labels, s, hrun, hpc⟩
  have hs : Reachable soloConfig s := ⟨soloInitial, labels, solo_initial, hrun⟩
  refine ⟨s, hs, hpc, fun fd => (descriptors_held hs ?_ fd).2⟩
  intro t
  rw [hpc]
  decide

/-! ### Once -/

/-- An `open` of `/dev/urandom` that succeeded. -/
def Label.opensFile : Label Thread → Bool
  | .call _ (.opened .urandom fd _) _ => decide (0 ≤ fd.val)
  | _ => false

omit [DecidableEq Thread] in
theorem opensFile_cases {label : Label Thread} (h : label.opensFile = true) :
    ∃ t fd errno retry, label = .call t (.opened .urandom fd errno) retry ∧ 0 ≤ fd.val := by
  unfold Label.opensFile at h
  split at h
  · exact ⟨_, _, _, _, rfl, of_decide_eq_true h⟩
  · simp at h

/-- Who has the file open does not open it. -/
theorem not_opensFile {mode : Mode Thread} {label : Label Thread} {fd : I32}
    (hs : Descriptors s mode) (hfile : s.files fd = some .urandom) (h : Step cfg s label s') :
    label.opensFile = false := by
  by_contra hopens
  rw [Bool.not_eq_false] at hopens
  rcases opensFile_cases hopens with ⟨t, fd', errno, retry, rfl, _⟩
  have hnext := (step_pc h).1
  have hopening : (s.call t).pc = .openFile := by
    generalize (s.call t).pc = pc at hnext ⊢
    generalize (s'.call t).pc = pc' at hnext
    cases next_moves hnext with
    | _ => rfl
  have hmode := (hs.inMode.opening t).mp (by rw [hopening]; rfl)
  rcases hs.urandom fd hfile with hopened | ⟨u, hpc⟩
  · rw [hmode] at hopened
    simp at hopened
  · have hmode' := (hs.inMode.opening u).mp (by rw [hpc]; rfl)
    rw [hmode] at hmode'
    cases hmode'
    rw [hopening] at hpc
    simp at hpc

/-- **The file is opened at most once**, however many calls there are and whatever fails. -/
theorem opened_once (hs : Initial s₀) (hrun : Run (Step cfg) s₀ labels s) :
    labels.countP Label.opensFile ≤ 1 := by
  have hafter : ∀ s label s', (∃ mode, Descriptors s mode) → Step cfg s label s' →
      label.opensFile = true → ∃ fd, s'.files fd = some .urandom := by
    intro s label s' _ h hopens
    rcases opensFile_cases hopens with ⟨t, fd, errno, retry, rfl, hfd⟩
    exact ⟨fd, (step_opened_file h hfd).1⟩
  refine (hrun.countP_le_one ?_ hafter ?_ ?_ ⟨_, descriptors_initial hs⟩).1
  · intro s label s' ⟨mode, hs⟩ h
    exact descriptors_step hs h
  · intro s label s' ⟨mode, hs⟩ ⟨fd, hfile⟩ h
    exact ⟨fd, urandom_stays hs h hfile⟩
  · intro s label s' ⟨mode, hs⟩ ⟨fd, hfile⟩ h
    exact not_opensFile hs hfile h

theorem solo_opened_once : ∃ labels s, Run (Step soloConfig) soloInitial labels s ∧
    (s.call ()).pc = .read ⟨3, by decide⟩ ⟨0, 1⟩ ∧ labels.countP Label.opensFile ≤ 1 := by
  rcases solo_opens ⟨3, by decide⟩ (by decide) with ⟨labels, s, hrun, hpc⟩
  exact ⟨labels, s, hrun, hpc, opened_once solo_initial hrun⟩

end Runs

end DevenvTemplate.UseFile
