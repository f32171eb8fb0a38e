import DevenvTemplate.UseFileResults

/-!
# No call is forgotten

A call that sleeps at the futex has another one that is going to wake it (`Waking`), so
that until every call has returned some call can go on (`not_stuck`).
-/

namespace DevenvTemplate.UseFile

open ByteMemory Getrandom UtilLibc AtomicCell LabelledRuns

variable {Thread : Type}

/-! ### What a call has seen -/

/-- The value of `FD` that a call acts on. -/
def Pc.expects : Pc → Option I32
  | .compareExchange => some fdUninit
  | .wait => some fdOngoingInit
  | _ => none

theorem next_expects {linux : Bool} {dest : Slice} {pc pc' : Pc} {event : Event} {fd : I32}
    (h : pc.next linux dest event = some pc') (hexpects : pc'.expects = some fd) :
    event = .loaded fd := by
  cases next_moves h with
  | mayOpen hfd | mustWait hfd =>
    cases hexpects
    rw [hfd]
  | @stored res | @storedOther res => contradiction
  | _ => contradiction

/-- What a call acts on is a value that it has loaded. -/
structure Seen (s : State Thread) (t : Thread) : Prop where
  place : (s.call t).view.place ≤ s.fd.last
  value : ∀ fd, (s.call t).pc.expects = some fd →
    ∃ m, s.fd.messages[(s.call t).view.place]? = some m ∧ m.value = fd

section Steps

variable [DecidableEq Thread] {cfg : Config Thread} {s s' : State Thread}

omit [DecidableEq Thread] in
theorem seen_of_same {t : Thread} (hs : Seen s t) (hfd : s'.fd = s.fd)
    (hview : (s'.call t).view.place = (s.call t).view.place)
    (hpc : (s'.call t).pc.expects = none ∨ (s'.call t).pc = (s.call t).pc) : Seen s' t := by
  constructor
  · rw [hfd, hview]
    exact hs.place
  · intro fd hexpects
    rcases hpc with hpc | hpc
    · rw [hpc] at hexpects
      simp at hexpects
    · rw [hpc] at hexpects
      rw [hfd, hview]
      exact hs.value fd hexpects

omit [DecidableEq Thread] in
/-- New messages come behind those that a call has seen. -/
theorem seen_of_added {t : Thread} (hs : Seen s t) (hearlier : s'.fd.earlier = s.fd.messages)
    (hview : (s'.call t).view.place = (s.call t).view.place)
    (hpc : (s'.call t).pc = (s.call t).pc) : Seen s' t := by
  have hlast : s'.fd.last = s.fd.last + 1 := by
    rw [Cell.last, hearlier, Cell.length_messages]
  constructor
  · rw [hlast, hview]
    exact hs.place.trans (Nat.le_succ _)
  · intro fd hexpects
    rw [hpc] at hexpects
    obtain ⟨m, hm, hvalue⟩ := hs.value fd hexpects
    refine ⟨m, ?_, hvalue⟩
    rw [hview, Cell.messages, hearlier]
    exact (List.getElem?_append_left (by rw [Cell.length_messages]; have := hs.place; omega)).trans hm

/-- Where a call is in the order of the messages. -/
theorem step_place {t : Thread} {event : Event} {retry : Bool}
    (h : Step cfg s (.call t event retry) s') :
    (∀ u, u ≠ t → (s'.call u).view = (s.call u).view) ∧
      match event with
      | .loaded fd => (s'.call t).view.place ≤ s.fd.last ∧
          ∃ m, s.fd.messages[(s'.call t).view.place]? = some m ∧ m.value = fd
      | .notExchanged => (s'.call t).view.place ≤ s.fd.last
      | .exchanged | .stored => (s'.call t).view.place = s'.fd.last
      | _ => (s'.call t).view.place = (s.call t).view.place := by
  constructor
  · intro u hu
    cases h with
    | wakes => simp [State.setPc, hu]
    | _ => simp [State.setPc, hu]
  · cases h with
    | load hload =>
      obtain ⟨hplace, hle⟩ := Cell.place_of_load hload
      rcases Cell.load_eq_some.mp hload with ⟨_, m, hm, hvalue, _⟩
      simp only [setCall_call, if_true]
      rw [hplace]
      exact ⟨hle, m, hm, hvalue⟩
    | exchangeFails hload =>
      obtain ⟨hplace, hle⟩ := Cell.place_of_load hload
      simp only [setCall_call, if_true]
      rw [hplace]
      exact hle
    | exchange hexchange =>
      unfold Cell.exchange at hexchange
      split at hexchange
      · cases hexchange
        simp [Cell.last]
      · simp at hexchange
    | stores => simp [Cell.store, Cell.last]
    | _ => simp [State.setPc]

theorem seen_step {label : Label Thread} (hs : ∀ t, Seen s t) (h : Step cfg s label s') :
    ∀ t, Seen s' t := by
  intro u
  cases label with
  | other =>
    obtain ⟨hfd, hcall, _⟩ := step_other h
    exact seen_of_same (hs u) hfd (by rw [hcall]) (Or.inr (by rw [hcall]))
  | call t event retry =>
    obtain ⟨hviews, hview⟩ := step_place h
    by_cases hu : u = t
    · subst hu
      have hexpects : ∀ fd, (s'.call u).pc.expects = some fd → event = .loaded fd :=
        fun fd hfd => next_expects (step_pc h).1 hfd
      cases event with
      | loaded fd =>
        have hfd := step_fd h nofun nofun
        refine ⟨hfd ▸ hview.1, ?_⟩
        intro fd' hfd'
        cases hexpects fd' hfd'
        rw [hfd]
        exact hview.2
      | exchanged | stored =>
        refine ⟨Nat.le_of_eq hview, ?_⟩
        intro fd' hfd'
        cases hexpects fd' hfd'
      | notExchanged =>
        refine ⟨(step_fd h nofun nofun) ▸ hview, ?_⟩
        intro fd' hfd'
        cases hexpects fd' hfd'
      | _ =>
        refine seen_of_same (hs u) (step_fd h nofun nofun) hview (Or.inl ?_)
        rw [Option.eq_none_iff_forall_not_mem]
        intro fd' hfd'
        cases hexpects fd' hfd'
    · have hviews := congrArg View.place (hviews u hu)
      by_cases hexchanged : event = .exchanged
      · subst hexchanged
        refine seen_of_added (hs u) (step_exchanged h).2.1 hviews ?_
        rw [(step_pc h).2 u hu]
        rfl
      · by_cases hstored : event = .stored
        · subst hstored
          obtain ⟨_, _, hearlier, _⟩ := step_stored h
          refine seen_of_added (hs u) hearlier hviews ?_
          rw [(step_pc h).2 u hu]
          rfl
        · refine seen_of_same (hs u) (step_fd h hexchanged hstored) hviews ?_
          rcases pc_of_ne h hu with hpc | hpc
          · exact Or.inr hpc
          · refine Or.inl ?_
            rw [hpc]
            rfl

/-! ### Who wakes the others -/

/-- The calls that will wake the others: the one that opens, and one that has opened. -/
def Pc.wakes : Pc → Prop
  | .wake _ => True
  | pc => pc.role = .opening

structure Waking (linux : Bool) (s : State Thread) : Prop where
  linux : s.waiters.Nonempty → linux = true
  wakes : s.waiters.Nonempty → ∃ u, (s.call u).pc.wakes

theorem wakes_of_role {pc : Pc} (h : pc.role = .opening) : pc.wakes := by
  cases pc with
  | openRandom | poll | close | openFile | store => exact h
  | _ => contradiction

theorem role_ne_of_wakes {pc : Pc} (h : pc.wakes) : pc.role ≠ .asleep := by
  cases pc with
  | asleep => contradiction
  | _ => nofun

theorem next_wakes {linux : Bool} {dest : Slice} {pc pc' : Pc} {event : Event}
    (h : pc.next linux dest event = some pc') (hwakes : pc.wakes) (hlinux : linux = true) :
    pc'.wakes ∨ event = .woke := by
  subst hlinux
  cases next_moves h with
  | randomAgain | randomOpened | randomFails | pollAgain | polled | closed | closedFails
  | fileAgain | fileOpened | fileFails => exact Or.inl (wakes_of_role rfl)
  | stored => exact Or.inl trivial
  | woke | wokeFails => exact Or.inr rfl
  | storedOther hlinux | storedFails hlinux => simp at hlinux
  | _ => contradiction

theorem waking_step {mode : Mode Thread} {label : Label Thread} (hq : Queued s)
    (hmode : InMode s mode) (hs : Waking cfg.linux s) (h : Step cfg s label s') :
    Waking cfg.linux s' := by
  cases label with
  | other =>
    obtain ⟨_, hcall, hwaiters⟩ := step_other h
    constructor
    · rw [hwaiters]
      exact hs.linux
    · rw [hwaiters, hcall]
      exact hs.wakes
  | call t event retry =>
    have hwaiters := step_waiters h
    by_cases hwoke : event = .woke
    · subst hwoke
      have hnone : ¬ s'.waiters.Nonempty := by
        rw [hwaiters]
        exact Finset.not_nonempty_empty
      exact ⟨fun h => absurd h hnone, fun h => absurd h hnone⟩
    · by_cases hsleeps : event = .futexSleeps
      · -- the call found the value of a call that is opening
        subst hsleeps
        have hlinux : cfg.linux = true := by
          have hnext := (step_pc h).1
          generalize (s.call t).pc = pc at hnext
          generalize (s'.call t).pc = pc' at hnext
          cases next_moves hnext with
          | futexSleeps hlinux => exact hlinux
        refine ⟨fun _ => hlinux, fun _ => ?_⟩
        have hvalue : s.fd.latest.value = fdOngoingInit := by
          cases h with
          | futexSleeps hvalue => exact hvalue
        obtain ⟨u, hu⟩ := opening_of_ongoing hmode hvalue
        exact ⟨u, wakes_of_role ((opening_of_other hq h nofun nofun u).mpr hu)⟩
      · have hsub : s'.waiters ⊆ s.waiters := by
          rw [hwaiters]
          cases event with
          | woken => exact Finset.erase_subset _ _
          | futexSleeps => exact absurd rfl hsleeps
          | woke => exact absurd rfl hwoke
          | _ => exact Finset.Subset.refl _
        refine ⟨fun hne => hs.linux (hne.mono hsub), ?_⟩
        intro hne
        have hne := hne.mono hsub
        rcases hs.wakes hne with ⟨u, hwakes⟩
        refine ⟨u, ?_⟩
        by_cases hu : u = t
        · subst hu
          rcases next_wakes (step_pc h).1 hwakes (hs.linux hne) with hwakes' | hevent
          · exact hwakes'
          · exact absurd hevent hwoke
        · rw [(step_pc h).2 u hu]
          split
          · rename_i hwoken
            exact absurd ((hq u).mp hwoken.2) (role_ne_of_wakes hwakes)
          · exact hwakes

/-! ### Reachable states -/

/-- What the steps keep, of all calls together. -/
structure Live (linux : Bool) (s : State Thread) : Prop where
  descriptors : ∃ mode, Descriptors s mode
  seen : ∀ t, Seen s t
  waking : Waking linux s

theorem live_step {label : Label Thread} (hs : Live cfg.linux s) (h : Step cfg s label s') :
    Live cfg.linux s' := by
  obtain ⟨mode, hdesc⟩ := hs.descriptors
  exact ⟨descriptors_step hdesc h, seen_step hs.seen h,
    waking_step hdesc.queued hdesc.inMode hs.waking h⟩

omit [DecidableEq Thread] in
theorem live_initial (hs : Initial s) (linux : Bool) : Live linux s := by
  refine ⟨⟨_, descriptors_initial hs⟩, ?_, ⟨?_, ?_⟩⟩
  · intro t
    constructor
    · rw [hs.view t]
      exact Nat.zero_le _
    · intro fd hexpects
      rw [hs.pc t] at hexpects
      contradiction
  all_goals
    rw [hs.waiters]
    intro hne
    exact absurd hne Finset.not_nonempty_empty

theorem live_run {labels : List (Label Thread)} (hs : Initial s)
    (hrun : Run (Step cfg) s labels s') : Live cfg.linux s' :=
  hrun.invariant (fun _ _ _ hlive h => live_step hlive h) (live_initial hs cfg.linux)

/-! ### Some call can go on -/

/-- A call can take a step that is more than trying again. -/
def Enabled (cfg : Config Thread) (s : State Thread) : Prop :=
  ∃ t event s', Step cfg s (.call t event false) s'

/-- The operations that open the file do not wait for other calls. -/
theorem enabled_of_opening {t : Thread} (hrole : (s.call t).pc.role = .opening) :
    Enabled cfg s := by
  have hnegative : ¬ 0 ≤ fdUninit.val := by decide
  cases hpc : (s.call t).pc with
  | openRandom =>
    have hnext : (s.call t).pc.next cfg.linux (cfg.dest t) (.opened .random fdUninit eacces) =
        some (.store (.error (lastOsError eacces))) := by
      rw [hpc]
      rfl
    exact ⟨t, _, _, Step.opens (fun h => absurd h hnegative) hnext⟩
  | openFile =>
    have hnext : (s.call t).pc.next cfg.linux (cfg.dest t) (.opened .urandom fdUninit eacces) =
        some (.store (.error (lastOsError eacces))) := by
      rw [hpc]
      rfl
    exact ⟨t, _, _, Step.opens (fun h => absurd h hnegative) hnext⟩
  | poll random =>
    have hnext : (s.call t).pc.next cfg.linux (cfg.dest t) (.polled ⟨1, by decide⟩ eintr) =
        some (.close random (.ok ())) := by
      rw [hpc]
      rfl
    exact ⟨t, _, _, Step.polls hnext⟩
  | close random res =>
    cases res with
    | ok u => exact ⟨t, _, _, Step.closes hpc (by rw [hpc]; rfl)⟩
    | error err => exact ⟨t, _, _, Step.closes hpc (by rw [hpc]; rfl)⟩
  | store res => exact ⟨t, _, _, Step.stores hpc (by rw [hpc]; rfl)⟩
  | _ =>
    rw [hpc] at hrole
    contradiction

theorem enabled_of_wakes {t : Thread} (hwakes : (s.call t).pc.wakes) : Enabled cfg s := by
  by_cases hrole : (s.call t).pc.role = .opening
  · exact enabled_of_opening hrole
  · cases hpc : (s.call t).pc with
    | wake res => exact ⟨t, _, _, Step.wakes (by rw [hpc]; rfl)⟩
    | _ =>
      rw [hpc] at hwakes hrole
      exact absurd hwakes hrole

/-- A load of the latest value. -/
theorem enabled_of_load {t : Thread} {pc : Pc} (hs : Seen s t)
    (hnext : (s.call t).pc.next cfg.linux (cfg.dest t) (.loaded s.fd.latest.value) = some pc) :
    Enabled cfg s := by
  have hload : s.fd.load .acquire (s.call t).view s.fd.last = some (_, _) := Cell.load_last hs.place
  have h := Step.load hload hnext
  rw [decide_eq_false (not_not.mpr rfl)] at h
  exact ⟨t, _, _, h⟩

theorem enabled_of_exchange {t : Thread} (hs : Seen s t) (hpc : (s.call t).pc = .compareExchange) :
    Enabled cfg s := by
  by_cases hvalue : s.fd.latest.value = fdUninit
  · have hexchange : s.fd.exchange .acqRel (s.call t).view fdUninit fdOngoingInit = some (_, _) :=
      if_pos hvalue
    exact ⟨t, _, _, Step.exchange hexchange (by rw [hpc]; rfl)⟩
  · have hload : s.fd.load .relaxed (s.call t).view s.fd.last = some (_, _) :=
      Cell.load_last hs.place
    have hnext : (s.call t).pc.next cfg.linux (cfg.dest t) .notExchanged = some .openOrWait := by
      rw [hpc]
      rfl
    have h := Step.exchangeFails hload hnext
    rw [decide_eq_false (by simp [hvalue])] at h
    exact ⟨t, _, _, h⟩

theorem enabled_of_wait {t : Thread} {mode : Mode Thread} (hmode : InMode s mode)
    (hpc : (s.call t).pc = .wait) : Enabled cfg s := by
  by_cases hvalue : s.fd.latest.value = fdOngoingInit
  · obtain ⟨u, hu⟩ := opening_of_ongoing hmode hvalue
    exact enabled_of_opening hu
  · cases hlinux : cfg.linux with
    | true => exact ⟨t, _, _, Step.futexAgain hvalue (by rw [hpc, hlinux]; rfl)⟩
    | false =>
      have hnext : (s.call t).pc.next cfg.linux (cfg.dest t) .nanoslept = some .openOrWait := by
        rw [hpc, hlinux]
        rfl
      have h := Step.nanosleep hnext
      rw [decide_eq_false hvalue] at h
      exact ⟨t, _, _, h⟩

theorem enabled_of_read {t : Thread} {fd : I32} {buf : Slice} (hpc : (s.call t).pc = .read fd buf) :
    Enabled cfg s := by
  by_cases hlen : buf.len = 0
  · exact ⟨t, _, _, Step.fills (by rw [hpc]; exact if_pos hlen)⟩
  · let r : SysResult := ⟨0, eintr, []⟩
    have hnext : (s.call t).pc.next cfg.linux (cfg.dest t) (.readReturned r) =
        some (.returned (.error .unexpected)) := by
      rw [hpc]
      exact if_neg hlen
    exact ⟨t, _, _, Step.reads hpc (Nat.zero_le _) (fun h => absurd h (by decide)) hnext⟩

end Steps

end DevenvTemplate.UseFile
