import DevenvTemplate.UseFileSafety

/-!
# What a call returns

After `Ok` the buffer of a call is full of bytes that its own reads delivered, and nothing
beside the buffer has changed.  An error is that of an operation of the call itself, and
never an interruption, also where the file was opened by another call.
-/

namespace DevenvTemplate.UseFile

open ByteMemory Getrandom UtilLibc AtomicCell LabelledRuns

variable {Thread : Type}

/-! ### Where bytes and errors come from -/

/-- A read of the call delivered the byte at an address. -/
def Delivered (labels : List (Label Thread)) (t : Thread) (m : Memory) (a : Nat) : Prop :=
  ∃ r retry position b, .call t (.readReturned r) retry ∈ labels ∧
    position < r.res.toNat ∧ r.bytes[position]? = some b ∧ m.cells a = some b

/-- An operation fails with an error. -/
def Event.FailsWith : Event → Error → Prop
  | .opened _ fd errno, err => fd.val < 0 ∧ err = lastOsError errno
  | .polled res errno, err => res.val < 0 ∧ err = lastOsError errno
  | .readReturned r, err =>
      (r.res = -1 ∧ err = lastOsError r.errno) ∨ (r.res ≠ -1 ∧ err = .unexpected)
  | _, _ => False

/-- An operation of the call failed with an error other than an interruption. -/
def Failed (labels : List (Label Thread)) (t : Thread) (err : Error) : Prop :=
  err.rawOsError ≠ some eintr ∧
    ∃ event retry, .call t event retry ∈ labels ∧ event.FailsWith err

/-- The error that a call is about to return. -/
def Pc.failure : Pc → Option Error
  | .close _ (.error err) | .store (.error err) | .wake (.error err) | .returned (.error err) =>
      some err
  | _ => none

theorem Delivered.of_append {labels : List (Label Thread)} {t : Thread} {m : Memory} {a : Nat}
    (h : Delivered labels t m a) (labels' : List (Label Thread)) :
    Delivered (labels ++ labels') t m a := by
  rcases h with ⟨r, retry, position, b, hmem, hrest⟩
  exact ⟨r, retry, position, b, List.mem_append_left labels' hmem, hrest⟩

theorem Delivered.of_cells {labels : List (Label Thread)} {t : Thread} {m m' : Memory} {a : Nat}
    (h : Delivered labels t m a) (hcells : m'.cells a = m.cells a) : Delivered labels t m' a := by
  rcases h with ⟨r, retry, position, b, hmem, hposition, hb, hcell⟩
  exact ⟨r, retry, position, b, hmem, hposition, hb, hcells.trans hcell⟩

theorem Failed.of_append {labels : List (Label Thread)} {t : Thread} {err : Error}
    (h : Failed labels t err) (labels' : List (Label Thread)) :
    Failed (labels ++ labels') t err := by
  rcases h with ⟨hne, event, retry, hmem, hfails⟩
  exact ⟨hne, event, retry, List.mem_append_left labels' hmem, hfails⟩

/-! ### One call -/

section Next

variable {linux : Bool} {dest : Slice} {pc pc' : Pc} {event : Event}

theorem rawOsError_unexpected : Error.unexpected.rawOsError ≠ some eintr := by
  rw [Error.unexpected, Error.rawOsError_newInternal]
  intro hnone
  cases hnone

theorem openReadonlyTurn_error {fd errno : I32} {err : Error}
    (h : openReadonlyTurn fd errno = some (.error err)) :
    err = lastOsError errno ∧ err.rawOsError ≠ some eintr := by
  rcases openReadonlyTurn_cases fd errno with hturn | ⟨hturn, _⟩ | ⟨hturn, _, hne⟩
  all_goals
    rw [hturn] at h
    cases h
  exact ⟨rfl, hne⟩

theorem pollTurn_error {res errno : I32} {err : Error}
    (h : pollTurn res errno = some (.error err)) :
    res.val < 0 ∧ err = lastOsError errno ∧ err.rawOsError ≠ some eintr := by
  unfold pollTurn at h
  split at h
  · cases h
  · rename_i hres
    dsimp only at h
    split at h
    · cases h
    · rename_i hne
      cases h
      exact ⟨Int.not_le.mp hres, rfl, hne⟩

theorem sysFillTurn_error {buf : Slice} {r : SysResult} {err : Error}
    (h : sysFillTurn buf r = .error err) :
    Event.FailsWith (.readReturned r) err ∧ err.rawOsError ≠ some eintr := by
  rcases sysFillTurn_cases buf r with ⟨_, _, hturn⟩ | ⟨_, _, hturn⟩ | ⟨err', hturn, hwhy⟩
  all_goals
    rw [hturn] at h
    cases h
  rcases hwhy with ⟨hres, heq, hne⟩ | ⟨heq, hres⟩
  · exact ⟨Or.inl ⟨hres, heq⟩, hne⟩
  · refine ⟨Or.inr ⟨?_, heq⟩, heq ▸ rawOsError_unexpected⟩
    rcases hres with hres | hres | hres
    all_goals omega

/-- A call has its error from before, or from the operation. -/
theorem next_failure {err : Error} (h : pc.next linux dest event = some pc')
    (hfailure : pc'.failure = some err) :
    pc.failure = some err ∨ (event.FailsWith err ∧ err.rawOsError ≠ some eintr) := by
  cases next_moves h with
  | randomFails hturn hfd | fileFails hturn hfd =>
    obtain ⟨heq, hne⟩ := openReadonlyTurn_error hturn
    cases hfailure
    exact Or.inr ⟨⟨hfd, heq⟩, hne⟩
  | @polled _ _ _ r hturn =>
    cases r with
    | ok u => cases hfailure
    | error err' =>
      cases hfailure
      obtain ⟨hres, heq, hne⟩ := pollTurn_error hturn
      exact Or.inr ⟨⟨hres, heq⟩, hne⟩
  | readFails _ hturn =>
    cases hfailure
    exact Or.inr (sysFillTurn_error hturn)
  | closedFails | storedFails | wokeFails => exact Or.inl hfailure
  | @stored res =>
    cases res with
    | ok fd => cases hfailure
    | error err' => exact Or.inl hfailure
  | _ => cases hfailure

/-- A call that reads begins with its whole buffer, or goes on with the rest. -/
theorem next_read {fd : I32} {buf : Slice} (h : pc.next linux dest event = some (.read fd buf)) :
    (buf = dest ∧ ∀ r, event ≠ .readReturned r) ∨
      ∃ buf' r, pc = .read fd buf' ∧ event = .readReturned r ∧ sysFillTurn buf' r = .ok buf := by
  cases next_moves h with
  | isOpen | wasOpened | storedOther | woke =>
    refine Or.inl ⟨rfl, ?_⟩
    intro r heq
    cases heq
  | read _ hturn => exact Or.inr ⟨_, _, rfl, rfl, hturn⟩

/-- A call that returns `Ok` has filled its buffer. -/
theorem next_returned (h : pc.next linux dest event = some (.returned (.ok ()))) :
    event = .filled ∧ ∃ fd buf, pc = .read fd buf ∧ buf.len = 0 := by
  cases next_moves h with
  | filled hlen => exact ⟨rfl, _, _, rfl, hlen⟩

end Next

section Steps

variable [DecidableEq Thread] {cfg : Config Thread} {s s' : State Thread}

/-- Only reads touch the memory, and each that of its own call. -/
theorem step_memory {t : Thread} {event : Event} {retry : Bool}
    (h : Step cfg s (.call t event retry) s') (u : Thread) :
    ((s'.call u).memory = (s.call u).memory ∧ (u = t → ∀ r, event ≠ .readReturned r)) ∨
      (u = t ∧ ∃ fd buf r, (s.call t).pc = .read fd buf ∧ event = .readReturned r ∧
        r.bytes.length ≤ buf.len ∧
        (0 < r.res → r.res.toNat ≤ buf.len → r.bytes.length = r.res.toNat) ∧
        (s'.call t).memory = (s.call t).memory.storeBytes buf.addr r.bytes) := by
  by_cases hu : u = t
  · subst hu
    cases h with
    | reads hpc hbuf hdelivers =>
      refine Or.inr ⟨rfl, _, _, _, hpc, rfl, hbuf, hdelivers, ?_⟩
      rw [setCall_call, if_pos rfl]
    | _ =>
      refine Or.inl ⟨?_, ?_⟩
      · simp [State.setPc]
      · intro _ r heq
        cases heq
  · refine Or.inl ⟨?_, fun heq => absurd heq hu⟩
    cases h with
    | _ => simp [State.setPc, hu]

/-! ### The invariant -/

/-- What a run has done for a call, whose memory was `before`. -/
structure Filled (dest : Slice) (labels : List (Label Thread)) (t : Thread) (before : Memory)
    (c : Call) : Prop where
  outside : ∀ a, a < dest.addr ∨ dest.addr + dest.len ≤ a → c.memory.cells a = before.cells a
  /-- The rest to be read ends where the buffer does. -/
  rest : ∀ fd buf, c.pc = .read fd buf →
    dest.addr ≤ buf.addr ∧ buf.addr + buf.len = dest.addr + dest.len
  delivered : ∀ fd buf, c.pc = .read fd buf →
    ∀ a, dest.addr ≤ a → a < buf.addr → Delivered labels t c.memory a
  returned : c.pc = .returned (.ok ()) →
    ∀ a, dest.addr ≤ a → a < dest.addr + dest.len → Delivered labels t c.memory a
  failure : ∀ err, c.pc.failure = some err → Failed labels t err

omit [DecidableEq Thread] in
/-- A step that leaves the call where it is, or wakes it. -/
theorem Filled.of_same {dest : Slice} {labels : List (Label Thread)} {t : Thread}
    {before : Memory} {c c' : Call} (h : Filled dest labels t before c) (label : Label Thread)
    (hmemory : c'.memory = c.memory) (hpc : c'.pc = c.pc ∨ c'.pc = .openOrWait) :
    Filled dest (labels ++ [label]) t before c' := by
  rcases hpc with hpc | hpc
  · refine ⟨?_, ?_, ?_, ?_, ?_⟩
    · rw [hmemory]
      exact h.outside
    · rw [hpc]
      exact h.rest
    · intro fd buf hread a hlow hhigh
      rw [hpc] at hread
      rw [hmemory]
      exact (h.delivered fd buf hread a hlow hhigh).of_append [label]
    · intro hok a hlow hhigh
      rw [hpc] at hok
      rw [hmemory]
      exact (h.returned hok a hlow hhigh).of_append [label]
    · intro err hfailure
      rw [hpc] at hfailure
      exact (h.failure err hfailure).of_append [label]
  · refine ⟨?_, ?_, ?_, ?_, ?_⟩
    · rw [hmemory]
      exact h.outside
    all_goals
      rw [hpc]
      intros
      contradiction

theorem outside_step {dest : Slice} {labels : List (Label Thread)} {t : Thread} {event : Event}
    {retry : Bool} {before : Memory} (hs : Filled dest labels t before (s.call t))
    (h : Step cfg s (.call t event retry) s') :
    ∀ a, a < dest.addr ∨ dest.addr + dest.len ≤ a →
      (s'.call t).memory.cells a = before.cells a := by
  intro a ha
  rcases step_memory h t with ⟨hsame, _⟩ | ⟨_, fd, buf, r, hpc, _, hbuf, _, hmemory⟩
  · rw [hsame]
    exact hs.outside a ha
  · obtain ⟨hlow, hend⟩ := hs.rest fd buf hpc
    rw [hmemory, Memory.storeBytes_outside _ _ _ _ (by omega)]
    exact hs.outside a ha

theorem rest_step {labels : List (Label Thread)} {t : Thread} {event : Event}
    {retry : Bool} {before : Memory} (hs : Filled (cfg.dest t) labels t before (s.call t))
    (h : Step cfg s (.call t event retry) s') (fd : I32) (buf : Slice)
    (hread : (s'.call t).pc = .read fd buf) :
    (cfg.dest t).addr ≤ buf.addr ∧
      buf.addr + buf.len = (cfg.dest t).addr + (cfg.dest t).len := by
  have hnext := (step_pc h).1
  rw [hread] at hnext
  rcases next_read hnext with ⟨rfl, _⟩ | ⟨buf', r, hpc, _, hturn⟩
  · exact ⟨Nat.le_refl _, rfl⟩
  · obtain ⟨hlow, hend⟩ := hs.rest fd buf' hpc
    rcases sysFillTurn_cases buf' r with ⟨_, hlen, hturn'⟩ | ⟨_, _, hturn'⟩ | ⟨err, hturn', _⟩
    all_goals
      rw [hturn] at hturn'
      cases hturn'
    · simp only
      omega
    · exact ⟨hlow, hend⟩

/-- What was read before stays, and what a read delivers is in front of the rest. -/
theorem delivered_step {labels : List (Label Thread)} {t : Thread} {event : Event}
    {retry : Bool} {before : Memory} (hs : Filled (cfg.dest t) labels t before (s.call t))
    (h : Step cfg s (.call t event retry) s') (fd : I32) (buf : Slice)
    (hread : (s'.call t).pc = .read fd buf) (a : Nat) (hlow : (cfg.dest t).addr ≤ a)
    (hhigh : a < buf.addr) :
    Delivered (labels ++ [.call t event retry]) t (s'.call t).memory a := by
  have hnext := (step_pc h).1
  rw [hread] at hnext
  rcases next_read hnext with ⟨rfl, _⟩ | ⟨buf', r, hpc, rfl, hturn⟩
  · exact absurd hlow (Nat.not_le.mpr hhigh)
  · rcases step_memory h t with
      ⟨_, hevent⟩ | ⟨_, fd', buf'', r', hpc', hevent, hbuf, hdelivers, hmemory⟩
    · exact absurd rfl (hevent rfl r)
    · rw [hpc] at hpc'
      cases hpc'
      cases hevent
      have hcells : ∀ a, a < buf'.addr → (s'.call t).memory.cells a = (s.call t).memory.cells a := by
        intro a ha
        rw [hmemory, Memory.storeBytes_outside _ _ _ _ (Or.inl ha)]
      by_cases hold : a < buf'.addr
      · exact ((hs.delivered fd buf' hpc a hlow hold).of_cells (hcells a hold)).of_append _
      · rcases sysFillTurn_cases buf' r with
          ⟨hpos, hlen, hturn'⟩ | ⟨_, _, hturn'⟩ | ⟨err, hturn', _⟩
        all_goals
          rw [hturn] at hturn'
          cases hturn'
        · have hbytes := hdelivers hpos hlen
          have hget : a - buf'.addr < r.bytes.length := by
            simp only at hhigh
            omega
          refine ⟨r, retry, a - buf'.addr, r.bytes[a - buf'.addr], by simp, by omega,
            List.getElem?_eq_getElem hget, ?_⟩
          have hcell := Memory.storeBytes_inside (s.call t).memory buf'.addr r.bytes hget
          rw [Nat.add_sub_cancel' (Nat.not_lt.mp hold)] at hcell
          rw [hmemory]
          exact hcell
        · exact absurd hhigh hold

theorem filled_step {labels : List (Label Thread)} {label : Label Thread} {before : Thread → Memory}
    (hs : ∀ t, Filled (cfg.dest t) labels t (before t) (s.call t)) (h : Step cfg s label s') :
    ∀ t, Filled (cfg.dest t) (labels ++ [label]) t (before t) (s'.call t) := by
  intro u
  cases label with
  | other =>
    have hcall := (step_other h).2.1
    exact (hs u).of_same _ (by rw [hcall]) (Or.inl (by rw [hcall]))
  | call t event retry =>
    by_cases hu : u = t
    · subst hu
      refine ⟨outside_step (hs u) h, rest_step (hs u) h, delivered_step (hs u) h, ?_, ?_⟩
      · -- the loop ends where the rest is empty
        intro hok a hlow hhigh
        have hnext := (step_pc h).1
        rw [hok] at hnext
        obtain ⟨hevent, fd, buf, hpc, hlen⟩ := next_returned hnext
        obtain ⟨_, hend⟩ := (hs u).rest fd buf hpc
        have hdelivered := (hs u).delivered fd buf hpc a hlow (by omega)
        rcases step_memory h u with ⟨hsame, _⟩ | ⟨_, _, _, r, _, hread, _⟩
        · rw [hsame]
          exact hdelivered.of_append _
        · rw [hevent] at hread
          simp at hread
      · intro err hfailure
        rcases next_failure (step_pc h).1 hfailure with hold | ⟨hfails, hne⟩
        · exact ((hs u).failure err hold).of_append _
        · exact ⟨hne, event, retry, by simp, hfails⟩
    · refine (hs u).of_same _ ?_ (pc_of_ne h hu)
      rcases step_memory h u with ⟨hsame, _⟩ | ⟨heq, _⟩
      · exact hsame
      · exact absurd heq hu

omit [DecidableEq Thread] in
theorem filled_initial (hs : Initial s) (t : Thread) (dest : Slice) :
    Filled dest [] t (s.call t).memory (s.call t) := by
  refine ⟨fun _ _ => rfl, ?_, ?_, ?_, ?_⟩
  all_goals
    rw [hs.pc t]
    intros
    contradiction

end Steps

section Runs

variable [DecidableEq Thread] {cfg : Config Thread} {s₀ s : State Thread}
  {labels : List (Label Thread)}

theorem filled_run (hs : Initial s₀) (hrun : Run (Step cfg) s₀ labels s) :
    ∀ t, Filled (cfg.dest t) labels t (s₀.call t).memory (s.call t) := by
  induction hrun with
  | nil => exact fun t => filled_initial hs t (cfg.dest t)
  | snoc _ step ih => exact filled_step ih step

theorem solo_reads : ∃ labels s, Run (Step soloConfig) soloInitial labels s ∧
    (s.call ()).pc = .returned (.ok ()) := by
  rcases solo_opens ⟨3, by decide⟩ (by decide) with ⟨labels, s, hrun, hpc⟩
  let r : SysResult := ⟨1, eintr, [7]⟩
  have hnext : (s.call ()).pc.next soloConfig.linux (soloConfig.dest ()) (.readReturned r) =
      some (.read ⟨3, by decide⟩ ⟨1, 0⟩) := by
    rw [hpc]
    rfl
  have hread := Step.reads hpc (by decide) (by decide) hnext
  exact ⟨_, _, Run.snoc (Run.snoc hrun hread) (Step.fills (t := ()) rfl), rfl⟩

/-- `EACCES` -/
def eacces : I32 := ⟨13, by decide⟩

theorem solo_fails : ∃ labels s, Run (Step soloConfig) soloInitial labels s ∧
    (s.call ()).pc = .returned (.error (lastOsError eacces)) := by
  rcases solo_begins with ⟨labels, s, hrun, hpc, _⟩
  have hnext : (s.call ()).pc.next soloConfig.linux (soloConfig.dest ())
      (.opened .urandom fdUninit eacces) = some (.store (.error (lastOsError eacces))) := by
    rw [hpc]
    rfl
  have hopens := Step.opens (fun hfd => absurd hfd (by decide)) hnext
  exact ⟨_, _, Run.snoc (Run.snoc hrun hopens) (Step.stores (t := ()) rfl rfl), rfl⟩

end Runs

end DevenvTemplate.UseFile
