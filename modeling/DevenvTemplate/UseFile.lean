import DevenvTemplate.AtomicCell
import DevenvTemplate.LabelledRuns
import DevenvTemplate.SysFill
import Mathlib.Data.Finset.Lattice.Basic

/-!
# Reading `/dev/urandom`

`use_file.rs` opens the file once for the whole process.  The first call to find the
variable `FD` uninitialised opens it, on Linux after `/dev/random` is ready, and the
calls that find it doing so wait: at a futex on Linux, and for a millisecond elsewhere.

`Pc.next` is the code of one call of `fill_inner`, from one operation on something
shared to the next.  `Step` is any number of such calls at work on one `FD`, one futex
and one table of descriptors, with the rest of the process opening and closing its own.
-/

namespace DevenvTemplate.UseFile

open ByteMemory Getrandom UtilLibc AtomicCell LabelledRuns

def fdUninit : I32 := ⟨-1, by decide⟩
def fdOngoingInit : I32 := ⟨-2, by decide⟩

/-! ### One call -/

/-- Where a call of `fill_inner` is: before the operation that the constructor names. -/
inductive Pc where
  | fillInner                                     -- the load in `fill_inner`
  | openOrWait                                    -- the load in the loop of `open_or_wait`
  | compareExchange
  | wait
  | asleep                                        -- in the queue of the futex
  | openRandom                                    -- `open` in `wait_until_rng_ready`
  | poll (random : I32)
  | close (random : I32) (res : Except Error Unit)
  | openFile                                      -- `open` in `open_fd`
  | store (res : Except Error I32)
  | wake (res : Except Error I32)
  | read (fd : I32) (buf : Slice)                 -- the loop of `sys_fill_exact`
  | returned (res : Except Error Unit)

/-- What a descriptor is open on: a file that this code opened, or not. -/
inductive File where
  | urandom
  | random
  | other
deriving DecidableEq, Repr

/-- An operation and what it returns to the call. -/
inductive Event where
  | loaded (fd : I32)
  | exchanged
  | notExchanged
  | futexSleeps
  | futexAgain                                    -- `EAGAIN`
  | nanoslept
  | woken
  | opened (file : File) (fd errno : I32)
  | polled (res errno : I32)
  | closed
  | stored
  | woke
  | readReturned (r : SysResult)
  | filled                                        -- the buffer is empty

/-- One turn of `open_readonly`; `none` when it goes on. -/
def openReadonlyTurn (fd errno : I32) : Option (Except Error I32) :=
  if 0 ≤ fd.val then some (.ok fd)
  else
    let err := lastOsError errno
    if err.rawOsError ≠ some eintr then some (.error err) else none

/-- One turn of the loop around `poll`. -/
def pollTurn (res errno : I32) : Option (Except Error Unit) :=
  if 0 ≤ res.val then some (.ok ())
  else
    let err := lastOsError errno
    if err.rawOsError = some eintr then none else some (.error err)

/-- The value that `open_or_wait` stores. -/
def storedValue : Except Error I32 → I32
  | .ok fd => fd
  | .error _ => fdUninit

/-- `fill_inner` after `open_or_wait` returned. -/
def afterOpenOrWait (dest : Slice) : Except Error I32 → Pc
  | .ok fd => .read fd dest
  | .error err => .returned (.error err)

def Pc.next (linux : Bool) (dest : Slice) : Pc → Event → Option Pc
  | .fillInner, .loaded fd =>
      some (if fd = fdUninit ∨ fd = fdOngoingInit then .openOrWait else .read fd dest)
  | .openOrWait, .loaded fd =>
      some (if fd = fdUninit then .compareExchange
        else if fd = fdOngoingInit then .wait
        else afterOpenOrWait dest (.ok fd))
  | .compareExchange, .exchanged => some (if linux then .openRandom else .openFile)
  | .compareExchange, .notExchanged => some .openOrWait
  | .wait, .futexSleeps => if linux then some .asleep else none
  | .wait, .futexAgain => if linux then some .openOrWait else none
  | .wait, .nanoslept => if linux then none else some .openOrWait
  | .asleep, .woken => some .openOrWait
  | .openRandom, .opened .random fd errno =>
      some (match openReadonlyTurn fd errno with
        | none => .openRandom
        | some (.ok random) => .poll random
        | some (.error err) => .store (.error err))
  | .poll random, .polled res errno =>
      some (match pollTurn res errno with
        | none => .poll random
        | some res => .close random res)
  | .close _ res, .closed =>
      some (match res with
        | .ok () => .openFile
        | .error err => .store (.error err))
  | .openFile, .opened .urandom fd errno =>
      some (match openReadonlyTurn fd errno with
        | none => .openFile
        | some res => .store res)
  | .store res, .stored => some (if linux then .wake res else afterOpenOrWait dest res)
  | .wake res, .woke => some (afterOpenOrWait dest res)
  | .read fd buf, .readReturned r =>
      if buf.len = 0 then none
      else some (match sysFillTurn buf r with
        | .ok rest => .read fd rest
        | .error err => .returned (.error err))
  | .read _ buf, .filled => if buf.len = 0 then some (.returned (.ok ())) else none
  | _, _ => none

/-! ### What an operation does to a call -/

/-- `Pc.next` with one constructor for each way through the code. -/
inductive Moves (linux : Bool) (dest : Slice) : Pc → Event → Pc → Prop
  | mustOpen {fd : I32} (hfd : fd = fdUninit ∨ fd = fdOngoingInit) :
      Moves linux dest .fillInner (.loaded fd) .openOrWait
  | isOpen {fd : I32} (huninit : fd ≠ fdUninit) (hongoing : fd ≠ fdOngoingInit) :
      Moves linux dest .fillInner (.loaded fd) (.read fd dest)
  | mayOpen {fd : I32} (hfd : fd = fdUninit) :
      Moves linux dest .openOrWait (.loaded fd) .compareExchange
  | mustWait {fd : I32} (hfd : fd = fdOngoingInit) :
      Moves linux dest .openOrWait (.loaded fd) .wait
  | wasOpened {fd : I32} (huninit : fd ≠ fdUninit) (hongoing : fd ≠ fdOngoingInit) :
      Moves linux dest .openOrWait (.loaded fd) (.read fd dest)
  | exchanged (hlinux : linux = true) :
      Moves linux dest .compareExchange .exchanged .openRandom
  | exchangedOther (hlinux : linux = false) :
      Moves linux dest .compareExchange .exchanged .openFile
  | notExchanged : Moves linux dest .compareExchange .notExchanged .openOrWait
  | futexSleeps (hlinux : linux = true) : Moves linux dest .wait .futexSleeps .asleep
  | futexAgain (hlinux : linux = true) : Moves linux dest .wait .futexAgain .openOrWait
  | nanoslept (hlinux : linux = false) : Moves linux dest .wait .nanoslept .openOrWait
  | woken : Moves linux dest .asleep .woken .openOrWait
  | randomAgain {fd errno : I32} (hturn : openReadonlyTurn fd errno = none) :
      Moves linux dest .openRandom (.opened .random fd errno) .openRandom
  | randomOpened {fd errno : I32} (hturn : openReadonlyTurn fd errno = some (.ok fd))
      (hfd : 0 ≤ fd.val) : Moves linux dest .openRandom (.opened .random fd errno) (.poll fd)
  | randomFails {fd errno : I32} {err : Error}
      (hturn : openReadonlyTurn fd errno = some (.error err)) (hfd : fd.val < 0) :
      Moves linux dest .openRandom (.opened .random fd errno) (.store (.error err))
  | pollAgain {random res errno : I32} (hturn : pollTurn res errno = none) :
      Moves linux dest (.poll random) (.polled res errno) (.poll random)
  | polled {random res errno : I32} {r : Except Error Unit} (hturn : pollTurn res errno = some r) :
      Moves linux dest (.poll random) (.polled res errno) (.close random r)
  | closed {random : I32} : Moves linux dest (.close random (.ok ())) .closed .openFile
  | closedFails {random : I32} {err : Error} :
      Moves linux dest (.close random (.error err)) .closed (.store (.error err))
  | fileAgain {fd errno : I32} (hturn : openReadonlyTurn fd errno = none) :
      Moves linux dest .openFile (.opened .urandom fd errno) .openFile
  | fileOpened {fd errno : I32} (hturn : openReadonlyTurn fd errno = some (.ok fd))
      (hfd : 0 ≤ fd.val) : Moves linux dest .openFile (.opened .urandom fd errno) (.store (.ok fd))
  | fileFails {fd errno : I32} {err : Error}
      (hturn : openReadonlyTurn fd errno = some (.error err)) (hfd : fd.val < 0) :
      Moves linux dest .openFile (.opened .urandom fd errno) (.store (.error err))
  | stored {res : Except Error I32} (hlinux : linux = true) :
      Moves linux dest (.store res) .stored (.wake res)
  | storedOther {fd : I32} (hlinux : linux = false) :
      Moves linux dest (.store (.ok fd)) .stored (.read fd dest)
  | storedFails {err : Error} (hlinux : linux = false) :
      Moves linux dest (.store (.error err)) .stored (.returned (.error err))
  | woke {fd : I32} : Moves linux dest (.wake (.ok fd)) .woke (.read fd dest)
  | wokeFails {err : Error} :
      Moves linux dest (.wake (.error err)) .woke (.returned (.error err))
  | read {fd : I32} {buf rest : Slice} {r : SysResult} (hlen : buf.len ≠ 0)
      (hturn : sysFillTurn buf r = .ok rest) :
      Moves linux dest (.read fd buf) (.readReturned r) (.read fd rest)
  | readFails {fd : I32} {buf : Slice} {r : SysResult} {err : Error} (hlen : buf.len ≠ 0)
      (hturn : sysFillTurn buf r = .error err) :
      Moves linux dest (.read fd buf) (.readReturned r) (.returned (.error err))
  | filled {fd : I32} {buf : Slice} (hlen : buf.len = 0) :
      Moves linux dest (.read fd buf) .filled (.returned (.ok ()))

/-- An `open` goes on, or succeeds with a descriptor, or fails. -/
theorem openReadonlyTurn_cases (fd errno : I32) :
    openReadonlyTurn fd errno = none ∨
      (openReadonlyTurn fd errno = some (.ok fd) ∧ 0 ≤ fd.val) ∨
      (openReadonlyTurn fd errno = some (.error (lastOsError errno)) ∧ fd.val < 0 ∧
        (lastOsError errno).rawOsError ≠ some eintr) := by
  unfold openReadonlyTurn
  by_cases hfd : 0 ≤ fd.val
  · exact Or.inr (Or.inl ⟨if_pos hfd, hfd⟩)
  · rw [if_neg hfd]
    by_cases herr : (lastOsError errno).rawOsError = some eintr
    · exact Or.inl (if_neg (not_not.mpr herr))
    · exact Or.inr (Or.inr ⟨if_pos herr, Int.not_le.mp hfd, herr⟩)

section Next

variable {linux : Bool} {dest : Slice} {pc pc' : Pc} {event : Event}

theorem moves_loaded {fd : I32} (h : pc.next linux dest (.loaded fd) = some pc') :
    Moves linux dest pc (.loaded fd) pc' := by
  cases pc with
  | fillInner =>
    simp only [Pc.next, Option.some.injEq] at h
    split at h
    · rename_i hfd
      exact h ▸ Moves.mustOpen hfd
    · rename_i hfd
      rw [not_or] at hfd
      exact h ▸ Moves.isOpen hfd.1 hfd.2
  | openOrWait =>
    simp only [Pc.next, Option.some.injEq] at h
    split at h
    · rename_i hfd
      exact h ▸ Moves.mayOpen hfd
    · split at h
      · rename_i hfd
        exact h ▸ Moves.mustWait hfd
      · rename_i huninit hongoing
        exact h ▸ Moves.wasOpened huninit hongoing
  | _ => contradiction

theorem moves_opened {file : File} {fd errno : I32}
    (h : pc.next linux dest (.opened file fd errno) = some pc') :
    Moves linux dest pc (.opened file fd errno) pc' := by
  have hturn := openReadonlyTurn_cases fd errno
  cases pc with
  | openRandom =>
    cases file with
    | random =>
      rcases hturn with hturn | ⟨hturn, hfd⟩ | ⟨hturn, hfd, _⟩
      all_goals simp only [Pc.next, hturn, Option.some.injEq] at h
      · exact h ▸ Moves.randomAgain hturn
      · exact h ▸ Moves.randomOpened hturn hfd
      · exact h ▸ Moves.randomFails hturn hfd
    | _ => contradiction
  | openFile =>
    cases file with
    | urandom =>
      rcases hturn with hturn | ⟨hturn, hfd⟩ | ⟨hturn, hfd, _⟩
      all_goals simp only [Pc.next, hturn, Option.some.injEq] at h
      · exact h ▸ Moves.fileAgain hturn
      · exact h ▸ Moves.fileOpened hturn hfd
      · exact h ▸ Moves.fileFails hturn hfd
    | _ => contradiction
  | _ => contradiction

theorem moves_stored (h : pc.next linux dest .stored = some pc') :
    Moves linux dest pc .stored pc' := by
  cases pc with
  | store res =>
    cases linux with
    | true => exact Option.some.inj h ▸ Moves.stored rfl
    | false =>
      cases res with
      | ok fd => exact Option.some.inj h ▸ Moves.storedOther rfl
      | error err => exact Option.some.inj h ▸ Moves.storedFails rfl
  | _ => contradiction

theorem moves_readReturned {r : SysResult} (h : pc.next linux dest (.readReturned r) = some pc') :
    Moves linux dest pc (.readReturned r) pc' := by
  cases pc with
  | read fd buf =>
    by_cases hlen : buf.len = 0
    · simp [Pc.next, hlen] at h
    · simp only [Pc.next, if_neg hlen, Option.some.injEq] at h
      cases hturn : sysFillTurn buf r with
      | ok rest =>
        rw [hturn] at h
        exact h ▸ Moves.read hlen hturn
      | error err =>
        rw [hturn] at h
        exact h ▸ Moves.readFails hlen hturn
  | _ => contradiction

/-- **What an operation does to a call**, for the proofs to go through case by case. -/
theorem next_moves (h : pc.next linux dest event = some pc') : Moves linux dest pc event pc' := by
  cases event with
  | loaded fd => exact moves_loaded h
  | opened file fd errno => exact moves_opened h
  | stored => exact moves_stored h
  | readReturned r => exact moves_readReturned h
  | exchanged =>
    cases pc with
    | compareExchange =>
      cases linux with
      | true => exact Option.some.inj h ▸ Moves.exchanged rfl
      | false => exact Option.some.inj h ▸ Moves.exchangedOther rfl
    | _ => contradiction
  | notExchanged =>
    cases pc with
    | compareExchange => exact Option.some.inj h ▸ Moves.notExchanged
    | _ => contradiction
  | futexSleeps =>
    cases pc with
    | wait =>
      cases linux with
      | true => exact Option.some.inj h ▸ Moves.futexSleeps rfl
      | false => contradiction
    | _ => contradiction
  | futexAgain =>
    cases pc with
    | wait =>
      cases linux with
      | true => exact Option.some.inj h ▸ Moves.futexAgain rfl
      | false => contradiction
    | _ => contradiction
  | nanoslept =>
    cases pc with
    | wait =>
      cases linux with
      | true => contradiction
      | false => exact Option.some.inj h ▸ Moves.nanoslept rfl
    | _ => contradiction
  | woken =>
    cases pc with
    | asleep => exact Option.some.inj h ▸ Moves.woken
    | _ => contradiction
  | polled res errno =>
    cases pc with
    | poll random =>
      simp only [Pc.next, Option.some.injEq] at h
      cases hturn : pollTurn res errno with
      | none =>
        rw [hturn] at h
        exact h ▸ Moves.pollAgain hturn
      | some r =>
        rw [hturn] at h
        exact h ▸ Moves.polled hturn
    | _ => contradiction
  | closed =>
    cases pc with
    | close random res =>
      cases res with
      | ok u => exact Option.some.inj h ▸ Moves.closed
      | error err => exact Option.some.inj h ▸ Moves.closedFails
    | _ => contradiction
  | woke =>
    cases pc with
    | wake res =>
      cases res with
      | ok fd => exact Option.some.inj h ▸ Moves.woke
      | error err => exact Option.some.inj h ▸ Moves.wokeFails
    | _ => contradiction
  | filled =>
    cases pc with
    | read fd buf =>
      by_cases hlen : buf.len = 0
      · simp only [Pc.next, if_pos hlen, Option.some.injEq] at h
        exact h ▸ Moves.filled hlen
      · simp [Pc.next, hlen] at h
    | _ => contradiction

/-! ### Roles -/

/-- What a call is to the others. -/
inductive Role where
  | running
  | opening                                       -- between the exchange and the store
  | asleep
deriving DecidableEq, Repr

def Pc.role : Pc → Role
  | .openRandom | .poll _ | .close _ _ | .openFile | .store _ => .opening
  | .asleep => .asleep
  | _ => .running

/-- The operations that change the role of a call. -/
def Event.turns : Event → Option (Role × Role)
  | .exchanged => some (.running, .opening)
  | .stored => some (.opening, .running)
  | .futexSleeps => some (.running, .asleep)
  | .woken => some (.asleep, .running)
  | _ => none

theorem next_role_of_turns {before after : Role} (h : pc.next linux dest event = some pc')
    (hturns : event.turns = some (before, after)) : pc.role = before ∧ pc'.role = after := by
  cases next_moves h with
  | exchanged | exchangedOther | stored | storedOther | storedFails | futexSleeps | woken =>
    cases hturns
    exact ⟨rfl, rfl⟩
  | _ => contradiction

/-- All other operations leave the role of a call, which is awake, as it is. -/
theorem next_role (h : pc.next linux dest event = some pc') (hturns : event.turns = none) :
    pc'.role = pc.role ∧ pc.role ≠ .asleep := by
  cases next_moves h with
  | exchanged | exchangedOther | stored | storedOther | storedFails | futexSleeps | woken =>
    contradiction
  | _ => exact ⟨rfl, nofun⟩

end Next

/-! ### The process -/

/-- A call, with the bytes of the buffer that it has borrowed, and the descriptors it
    knows to have been opened for `/dev/urandom`. -/
structure Call where
  pc : Pc
  view : View (Finset I32)
  memory : Memory

/-- The calls of `fill_inner`, each with its buffer. -/
structure Config (Thread : Type) where
  linux : Bool
  dest : Thread → Slice

structure State (Thread : Type) where
  fd : Cell I32 (Finset I32)
  call : Thread → Call
  waiters : Finset Thread
  files : I32 → Option File

variable {Thread : Type}

/-- An operation with what it returned, and whether it only has to be tried again. -/
inductive Label (Thread : Type) where
  | call (t : Thread) (event : Event) (retry : Bool)
  | other

def Label.retry : Label Thread → Bool
  | .call _ _ retry => retry
  | .other => true

section Process

variable [DecidableEq Thread]

def State.setCall (s : State Thread) (t : Thread) (c : Call) : State Thread :=
  { s with call := Function.update s.call t c }

def State.setPc (s : State Thread) (t : Thread) (pc : Pc) : State Thread :=
  s.setCall t { s.call t with pc }

/-- The table after an `open`. -/
def filesOpened (files : I32 → Option File) (file : File) (fd : I32) : I32 → Option File :=
  if 0 ≤ fd.val then Function.update files fd (some file) else files

def knowsOpened (knows : Finset I32) (file : File) (fd : I32) : Finset I32 :=
  if 0 ≤ fd.val ∧ file = .urandom then insert fd knows else knows

/-- `FUTEX_WAKE` for all that wait. -/
def State.wakeAll (s : State Thread) : State Thread where
  fd := s.fd
  call u := if u ∈ s.waiters then { s.call u with pc := .openOrWait } else s.call u
  waiters := ∅
  files := s.files

@[simp] theorem setCall_call (s : State Thread) (t u : Thread) (c : Call) :
    (s.setCall t c).call u = if u = t then c else s.call u := by
  simp [State.setCall, Function.update_apply]

@[simp] theorem setCall_fd (s : State Thread) (t : Thread) (c : Call) :
    (s.setCall t c).fd = s.fd := rfl

@[simp] theorem setCall_waiters (s : State Thread) (t : Thread) (c : Call) :
    (s.setCall t c).waiters = s.waiters := rfl

@[simp] theorem setCall_files (s : State Thread) (t : Thread) (c : Call) :
    (s.setCall t c).files = s.files := rfl

@[simp] theorem wakeAll_view (s : State Thread) (u : Thread) :
    (s.wakeAll.call u).view = (s.call u).view := by
  simp only [State.wakeAll]
  split
  · rfl
  · rfl

@[simp] theorem wakeAll_memory (s : State Thread) (u : Thread) :
    (s.wakeAll.call u).memory = (s.call u).memory := by
  simp only [State.wakeAll]
  split
  · rfl
  · rfl

inductive Step (cfg : Config Thread) (s : State Thread) : Label Thread → State Thread → Prop
  -- a load may return an older value, which is then a reason to try again
  | load {t : Thread} {place : Nat} {fd : I32} {view : View (Finset I32)} {pc : Pc}
      (hload : s.fd.load .acquire (s.call t).view place = some (fd, view))
      (hnext : (s.call t).pc.next cfg.linux (cfg.dest t) (.loaded fd) = some pc) :
      Step cfg s (.call t (.loaded fd) (decide (place ≠ s.fd.last)))
        (s.setCall t { s.call t with pc, view })
  | exchange {t : Thread} {cell : Cell I32 (Finset I32)} {view : View (Finset I32)} {pc : Pc}
      (hexchange : s.fd.exchange .acqRel (s.call t).view fdUninit fdOngoingInit = some (cell, view))
      (hnext : (s.call t).pc.next cfg.linux (cfg.dest t) .exchanged = some pc) :
      Step cfg s (.call t .exchanged false)
        ({ s with fd := cell }.setCall t { s.call t with pc, view })
  -- the weak form may fail with the value that it expects
  | exchangeFails {t : Thread} {place : Nat} {fd : I32} {view : View (Finset I32)} {pc : Pc}
      (hload : s.fd.load .relaxed (s.call t).view place = some (fd, view))
      (hnext : (s.call t).pc.next cfg.linux (cfg.dest t) .notExchanged = some pc) :
      Step cfg s (.call t .notExchanged (decide (fd = fdUninit ∨ place ≠ s.fd.last)))
        (s.setCall t { s.call t with pc, view })
  -- the kernel compares and queues in one step
  | futexSleeps {t : Thread} {pc : Pc} (hvalue : s.fd.latest.value = fdOngoingInit)
      (hnext : (s.call t).pc.next cfg.linux (cfg.dest t) .futexSleeps = some pc) :
      Step cfg s (.call t .futexSleeps false)
        ({ s with waiters := insert t s.waiters }.setPc t pc)
  | futexAgain {t : Thread} {pc : Pc} (hvalue : s.fd.latest.value ≠ fdOngoingInit)
      (hnext : (s.call t).pc.next cfg.linux (cfg.dest t) .futexAgain = some pc) :
      Step cfg s (.call t .futexAgain false) (s.setPc t pc)
  | nanosleep {t : Thread} {pc : Pc}
      (hnext : (s.call t).pc.next cfg.linux (cfg.dest t) .nanoslept = some pc) :
      Step cfg s (.call t .nanoslept (decide (s.fd.latest.value = fdOngoingInit))) (s.setPc t pc)
  | spuriousWake {t : Thread} {pc : Pc}
      (hnext : (s.call t).pc.next cfg.linux (cfg.dest t) .woken = some pc) :
      Step cfg s (.call t .woken true) ({ s with waiters := s.waiters.erase t }.setPc t pc)
  -- the kernel gives out descriptors that are free
  | opens {t : Thread} {file : File} {fd errno : I32} {pc : Pc}
      (hfree : 0 ≤ fd.val → s.files fd = none)
      (hnext : (s.call t).pc.next cfg.linux (cfg.dest t) (.opened file fd errno) = some pc) :
      Step cfg s (.call t (.opened file fd errno) (openReadonlyTurn fd errno).isNone)
        ({ s with files := filesOpened s.files file fd }.setCall t
          { s.call t with
            pc
            view := ⟨(s.call t).view.place, knowsOpened (s.call t).view.knows file fd⟩ })
  | polls {t : Thread} {res errno : I32} {pc : Pc}
      (hnext : (s.call t).pc.next cfg.linux (cfg.dest t) (.polled res errno) = some pc) :
      Step cfg s (.call t (.polled res errno) (pollTurn res errno).isNone) (s.setPc t pc)
  | closes {t : Thread} {random : I32} {res : Except Error Unit} {pc : Pc}
      (hpc : (s.call t).pc = .close random res)
      (hnext : (s.call t).pc.next cfg.linux (cfg.dest t) .closed = some pc) :
      Step cfg s (.call t .closed false)
        ({ s with files := Function.update s.files random none }.setPc t pc)
  | stores {t : Thread} {res : Except Error I32} {pc : Pc} (hpc : (s.call t).pc = .store res)
      (hnext : (s.call t).pc.next cfg.linux (cfg.dest t) .stored = some pc) :
      Step cfg s (.call t .stored false)
        ({ s with fd := (s.fd.store .release (s.call t).view (storedValue res)).1 }.setCall t
          { s.call t with pc, view := (s.fd.store .release (s.call t).view (storedValue res)).2 })
  | wakes {t : Thread} {pc : Pc}
      (hnext : (s.call t).pc.next cfg.linux (cfg.dest t) .woke = some pc) :
      Step cfg s (.call t .woke false) (s.wakeAll.setPc t pc)
  | reads {t : Thread} {fd : I32} {buf : Slice} {r : SysResult} {pc : Pc}
      (hpc : (s.call t).pc = .read fd buf) (hbuf : r.bytes.length ≤ buf.len)
      (hdelivers : 0 < r.res → r.res.toNat ≤ buf.len → r.bytes.length = r.res.toNat)
      (hnext : (s.call t).pc.next cfg.linux (cfg.dest t) (.readReturned r) = some pc) :
      Step cfg s (.call t (.readReturned r) (decide (r.res = -1 ∧ r.errno = eintr)))
        (s.setCall t
          { s.call t with pc, memory := (s.call t).memory.storeBytes buf.addr r.bytes })
  | fills {t : Thread} {pc : Pc}
      (hnext : (s.call t).pc.next cfg.linux (cfg.dest t) .filled = some pc) :
      Step cfg s (.call t .filled false) (s.setPc t pc)
  -- the rest of the process keeps its hands off descriptors that are not its own
  | otherOpens {fd : I32} (hfree : s.files fd = none) :
      Step cfg s .other { s with files := Function.update s.files fd (some .other) }
  | otherCloses {fd : I32} (hother : s.files fd = some .other) :
      Step cfg s .other { s with files := Function.update s.files fd none }

/-! ### What a step does -/

section Steps

variable {cfg : Config Thread} {s s' : State Thread} {t : Thread} {event : Event} {retry : Bool}

def Event.wakesAll : Event → Bool
  | .woke => true
  | _ => false

/-- The call moves on by its event; the others stay, or are woken. -/
theorem step_pc (h : Step cfg s (.call t event retry) s') :
    (s.call t).pc.next cfg.linux (cfg.dest t) event = some (s'.call t).pc ∧
      ∀ u, u ≠ t → (s'.call u).pc =
        if event.wakesAll = true ∧ u ∈ s.waiters then .openOrWait else (s.call u).pc := by
  cases h with
  | wakes hnext =>
    refine ⟨by simpa [State.setPc] using hnext, ?_⟩
    intro u hu
    by_cases hmem : u ∈ s.waiters
    · simp [State.setPc, State.wakeAll, hu, hmem, Event.wakesAll]
    · simp [State.setPc, State.wakeAll, hu, hmem]
  | _ =>
    rename_i hnext
    refine ⟨by simpa [State.setPc] using hnext, ?_⟩
    intro u hu
    simp [State.setPc, hu, Event.wakesAll]

theorem step_fd (h : Step cfg s (.call t event retry) s') (hexchanged : event ≠ .exchanged)
    (hstored : event ≠ .stored) : s'.fd = s.fd := by
  cases h with
  | exchange => exact absurd rfl hexchanged
  | stores => exact absurd rfl hstored
  | _ => rfl

theorem step_exchanged (h : Step cfg s (.call t .exchanged retry) s') :
    s.fd.latest.value = fdUninit ∧ s'.fd.earlier = s.fd.messages ∧
      s'.fd.latest.value = fdOngoingInit := by
  cases h with
  | exchange hexchange =>
    unfold Cell.exchange at hexchange
    split at hexchange
    · rename_i hvalue
      cases hexchange
      exact ⟨hvalue, rfl, rfl⟩
    · simp at hexchange

theorem step_stored (h : Step cfg s (.call t .stored retry) s') :
    ∃ res, (s.call t).pc = .store res ∧ s'.fd.earlier = s.fd.messages ∧
      s'.fd.latest = ⟨storedValue res, (s.call t).view.knows⟩ := by
  cases h with
  | stores hpc => exact ⟨_, hpc, rfl, rfl⟩

theorem step_waiters (h : Step cfg s (.call t event retry) s') :
    s'.waiters = match event with
      | .futexSleeps => insert t s.waiters
      | .woken => s.waiters.erase t
      | .woke => ∅
      | _ => s.waiters := by
  cases h with
  | _ => rfl

theorem step_other (h : Step cfg s .other s') :
    s'.fd = s.fd ∧ s'.call = s.call ∧ s'.waiters = s.waiters := by
  cases h with
  | _ => exact ⟨rfl, rfl, rfl⟩

end Steps

/-- Before the first call: nothing is opened, and no call has begun. -/
structure Initial (s : State Thread) : Prop where
  fd : s.fd = Cell.new fdUninit
  pc : ∀ t, (s.call t).pc = .fillInner
  view : ∀ t, (s.call t).view = ⟨0, ∅⟩
  memory : ∀ t, (s.call t).memory.writes = []
  waiters : s.waiters = ∅
  files : ∀ fd, s.files fd = none ∨ s.files fd = some .other

/-- The states that the process can be in. -/
def Reachable (cfg : Config Thread) (s : State Thread) : Prop :=
  ∃ s₀ labels, Initial s₀ ∧ Run (Step cfg) s₀ labels s

end Process

end DevenvTemplate.UseFile
