import DevenvTemplate.UseFileProgress
import Mathlib.Algebra.BigOperators.Group.Finset.Basic
import Mathlib.Algebra.Order.BigOperators.Group.Finset
import Mathlib.Data.Fintype.Card

/-!
# How long the calls run

A bound on the length of every run, by how many calls there are, how long their buffers are
and how often an operation only had to be tried again (`run_length_le`).  `weight` is what
a call still has to do; where `FD` changes, the calls that act on its old value get more
to do, which the weight of the call that changes it pays for.
-/

namespace DevenvTemplate.UseFile

open ByteMemory Getrandom UtilLibc AtomicCell LabelledRuns

variable {Thread : Type}

/-! ### Weights -/

/-- What the opening of the file weighs, with `n` calls. -/
def openingWeight (n : Nat) : Nat := 4 * n + 6

/-- What a call still has to do. -/
def Pc.weight (n len : Nat) (stale : Bool) : Pc → Nat
  | .fillInner => 2 * openingWeight n + len + 4
  | .openOrWait => 2 * openingWeight n + len + 3
  | .compareExchange | .wait => 2 * openingWeight n + len + 2 + if stale then 2 else 0
  | .asleep => 2 * openingWeight n + len + 1
  | .openRandom => openingWeight n + len + 7
  | .poll _ => openingWeight n + len + 6
  | .close _ _ => openingWeight n + len + 5
  | .openFile => openingWeight n + len + 4
  | .store _ => openingWeight n + len + 3
  | .wake _ => len + 2 + 2 * n
  | .read _ buf => buf.len + 1
  | .returned _ => 0

/-- The operations by which a call gives the others more to do. -/
def Event.disturbs : Event → Bool
  | .exchanged | .stored | .woke => true
  | _ => false

/-- What the operation of a call costs it, beside what it gives the others to do. -/
def Event.gift (n : Nat) (event : Event) : Nat := if event.disturbs then 2 * n else 0

theorem weight_stale_le (n len : Nat) (stale stale' : Bool) (pc : Pc) :
    pc.weight n len stale' ≤ pc.weight n len stale + 2 := by
  cases pc with
  | compareExchange | wait =>
    cases stale
    all_goals cases stale'
    all_goals simp [Pc.weight]
  | _ => exact Nat.le_add_right _ _

/-! ### The call that moves -/

section Next

variable {linux : Bool} {dest : Slice} {pc pc' : Pc} {event : Event}

/-- An operation that has to be tried again costs at most two. -/
theorem weight_retry (n : Nat) (stale stale' : Bool) (h : pc.next linux dest event = some pc')
    (hdisturbs : event.disturbs = false) :
    pc'.weight n dest.len stale' ≤ pc.weight n dest.len stale + 2 := by
  cases next_moves h with
  | exchanged | exchangedOther | stored | storedOther | storedFails | woke | wokeFails =>
    cases hdisturbs
  | mayOpen | mustWait =>
    cases stale'
    all_goals simp [Pc.weight]
  | notExchanged | futexSleeps | futexAgain | nanoslept =>
    simp only [Pc.weight]
    omega
  | @read fd buf rest r hlen hturn =>
    rcases sysFillTurn_cases buf r with ⟨_, _, hturn'⟩ | ⟨_, _, hturn'⟩ | ⟨err, hturn', _⟩
    all_goals
      rw [hturn] at hturn'
      cases hturn'
    all_goals
      simp only [Pc.weight]
      omega
  | _ =>
    simp only [Pc.weight, openingWeight]
    omega

/-- An operation after which the call does not have to try it again: it read the latest
    value, or learns of one that it did not know. -/
def Event.Progresses (stale stale' : Bool) : Event → Prop
  | .loaded _ => stale' = false
  | .notExchanged | .futexAgain | .nanoslept => stale = true
  | .woken => False
  | .opened _ fd errno => openReadonlyTurn fd errno ≠ none
  | .polled res errno => pollTurn res errno ≠ none
  | .readReturned r => ¬ (r.res = -1 ∧ r.errno = eintr)
  | _ => True

/-- Other operations use up weight, and pay for what they give the others to do. -/
theorem weight_progress (n : Nat) {stale stale' : Bool}
    (h : pc.next linux dest event = some pc') (hprogress : event.Progresses stale stale') :
    pc'.weight n dest.len stale' + event.gift n < pc.weight n dest.len stale := by
  cases next_moves h with
  | randomAgain hturn | fileAgain hturn => exact absurd hturn hprogress
  | pollAgain hturn => exact absurd hturn hprogress
  | woken => exact absurd hprogress id
  | mayOpen | mustWait =>
    subst hprogress
    simp [Pc.weight, Event.gift, Event.disturbs]
  | notExchanged | futexAgain | nanoslept =>
    subst hprogress
    simp [Pc.weight, Event.gift, Event.disturbs]
  | @read fd buf rest r hlen hturn =>
    rcases sysFillTurn_cases buf r with ⟨_, _, hturn'⟩ | ⟨hres, herrno, _⟩ | ⟨err, hturn', _⟩
    · rw [hturn] at hturn'
      cases hturn'
      simp only [Pc.weight, Event.gift, Event.disturbs, Bool.false_eq_true, if_false]
      omega
    · exact absurd ⟨hres, herrno⟩ hprogress
    · rw [hturn] at hturn'
      simp at hturn'
  | _ =>
    simp only [Pc.weight, Event.gift, Event.disturbs, openingWeight, Bool.false_eq_true, if_false,
      if_true]
    omega

end Next

/-! ### All calls -/

/-- The last message that the call has seen is not the latest. -/
def stale (s : State Thread) (t : Thread) : Bool := decide ((s.call t).view.place ≠ s.fd.last)

theorem stale_of_expects {s : State Thread} {t : Thread} {fd : I32} (hs : Seen s t)
    (hexpects : (s.call t).pc.expects = some fd) (hne : s.fd.latest.value ≠ fd) :
    stale s t = true := by
  refine decide_eq_true ?_
  intro hlast
  obtain ⟨m, hm, hvalue⟩ := hs.value fd hexpects
  rw [hlast, Cell.messages_last] at hm
  cases hm
  exact hne hvalue

section Steps

variable [DecidableEq Thread] {cfg : Config Thread} {s s' : State Thread} {t : Thread}
  {event : Event} {retry : Bool}

theorem expects_of_notExchanged {linux : Bool} {dest : Slice} {pc pc' : Pc}
    (h : pc.next linux dest .notExchanged = some pc') : pc.expects = some fdUninit := by
  cases next_moves h with
  | notExchanged => rfl

theorem expects_of_wait {linux : Bool} {dest : Slice} {pc pc' : Pc} {event : Event}
    (h : pc.next linux dest event = some pc')
    (hevent : event = .futexAgain ∨ event = .nanoslept) : pc.expects = some fdOngoingInit := by
  cases next_moves h with
  | futexAgain | nanoslept => rfl
  | _ =>
    rcases hevent with hevent | hevent
    all_goals simp at hevent

/-- A step that is no retry progresses. -/
theorem step_progresses (hs : Seen s t) (h : Step cfg s (.call t event retry) s')
    (hretry : retry = false) : event.Progresses (stale s t) (stale s' t) := by
  cases h with
  | @load _ place _ _ _ hload =>
    have hplace : place = s.fd.last := not_not.mp (of_decide_eq_false hretry)
    have hview := (Cell.place_of_load hload).1
    refine decide_eq_false (not_not.mpr ?_)
    simp [hview, hplace]
  | exchangeFails hload hnext =>
    have hnot := of_decide_eq_false hretry
    rw [not_or, not_not] at hnot
    refine stale_of_expects hs (expects_of_notExchanged hnext) ?_
    rw [hnot.2] at hload
    rw [← Cell.value_of_load_last hload]
    exact hnot.1
  | futexAgain hvalue hnext =>
    exact stale_of_expects hs (expects_of_wait hnext (Or.inl rfl)) hvalue
  | nanosleep hnext =>
    exact stale_of_expects hs (expects_of_wait hnext (Or.inr rfl)) (of_decide_eq_false hretry)
  | spuriousWake => simp at hretry
  | opens | polls =>
    intro hnone
    rw [hnone] at hretry
    simp at hretry
  | reads => exact of_decide_eq_false hretry
  | exchange | futexSleeps | closes | stores | wakes | fills => trivial

theorem disturbs_of_retry (h : Step cfg s (.call t event retry) s') (hretry : retry = true) :
    event.disturbs = false := by
  cases h with
  | exchange | stores | wakes => simp at hretry
  | _ => rfl

/-- Another call gets at most two more to do, and that only from who disturbs it. -/
theorem weight_other {u : Thread} (n len : Nat) (hq : Queued s)
    (h : Step cfg s (.call t event retry) s') (hu : u ≠ t) :
    (s'.call u).pc.weight n len (stale s' u) ≤
      (s.call u).pc.weight n len (stale s u) + if event.disturbs then 2 else 0 := by
  have hpc := (step_pc h).2 u hu
  by_cases hdisturbs : event.disturbs = true
  · rw [if_pos hdisturbs, hpc]
    split
    · -- the call slept, and is woken
      rename_i hwoken
      have hrole := (hq u).mp hwoken.2
      generalize (s.call u).pc = pc at hrole
      cases pc with
      | asleep => simp [Pc.weight]
      | _ => contradiction
    · exact weight_stale_le n len _ _ _
  · have hfd : s'.fd = s.fd := by
      apply step_fd h
      · intro heq
        exact hdisturbs (heq ▸ rfl)
      · intro heq
        exact hdisturbs (heq ▸ rfl)
    have hwakes : event.wakesAll ≠ true := by
      intro heq
      apply hdisturbs
      cases event with
      | woke => rfl
      | _ => contradiction
    rw [if_neg (fun hboth => hwakes hboth.1)] at hpc
    rw [hpc, stale, stale, hfd, (step_place h).1 u hu]
    exact Nat.le_add_right _ _

/-! ### The potential -/

variable [Fintype Thread]

def potential (cfg : Config Thread) (s : State Thread) : Nat :=
  ∑ u, (s.call u).pc.weight (Fintype.card Thread) (cfg.dest u).len (stale s u)

/-- The potential changes as the weight of the call does, and by what it gives the others. -/
theorem potential_step (hq : Queued s) (h : Step cfg s (.call t event retry) s') :
    potential cfg s' +
        (s.call t).pc.weight (Fintype.card Thread) (cfg.dest t).len (stale s t) ≤
      potential cfg s +
        (s'.call t).pc.weight (Fintype.card Thread) (cfg.dest t).len (stale s' t) +
        event.gift (Fintype.card Thread) := by
  have hothers : ∑ u ∈ Finset.univ.erase t,
        (s'.call u).pc.weight (Fintype.card Thread) (cfg.dest u).len (stale s' u) ≤
      ∑ u ∈ Finset.univ.erase t,
        ((s.call u).pc.weight (Fintype.card Thread) (cfg.dest u).len (stale s u) +
          if event.disturbs then 2 else 0) :=
    Finset.sum_le_sum fun u hu => weight_other _ _ hq h (Finset.ne_of_mem_erase hu)
  have hgift : ∑ _u ∈ Finset.univ.erase t, (if event.disturbs then 2 else 0) ≤
      event.gift (Fintype.card Thread) := by
    rw [Finset.sum_const_nat fun _ _ => rfl, Event.gift]
    have hcard : (Finset.univ.erase t).card ≤ Fintype.card Thread := Finset.card_le_univ _
    split
    · omega
    · exact Nat.zero_le _
  rw [Finset.sum_add_distrib] at hothers
  have hbefore := Finset.add_sum_erase Finset.univ (fun u =>
    (s.call u).pc.weight (Fintype.card Thread) (cfg.dest u).len (stale s u)) (Finset.mem_univ t)
  have hafter := Finset.add_sum_erase Finset.univ (fun u =>
    (s'.call u).pc.weight (Fintype.card Thread) (cfg.dest u).len (stale s' u)) (Finset.mem_univ t)
  unfold potential
  omega

theorem potential_progress {label : Label Thread} (hs : Live cfg.linux s)
    (h : Step cfg s label s') (hretry : label.retry = false) :
    potential cfg s' < potential cfg s := by
  cases label with
  | other => contradiction
  | call t event retry =>
    obtain ⟨mode, hdesc⟩ := hs.descriptors
    have hweight := weight_progress (Fintype.card Thread) (step_pc h).1
      (step_progresses (hs.seen t) h hretry)
    have hstep := potential_step hdesc.queued h
    omega

theorem potential_retry {label : Label Thread} (hs : Live cfg.linux s)
    (h : Step cfg s label s') (hretry : label.retry = true) :
    potential cfg s' ≤ potential cfg s + 2 := by
  cases label with
  | other =>
    obtain ⟨hfd, hcall, _⟩ := step_other h
    simp [potential, stale, hfd, hcall]
  | call t event retry =>
    obtain ⟨mode, hdesc⟩ := hs.descriptors
    have hdisturbs := disturbs_of_retry h hretry
    have hweight := weight_retry (Fintype.card Thread) (stale s t) (stale s' t) (step_pc h).1
      hdisturbs
    have hstep := potential_step hdesc.queued h
    rw [Event.gift, hdisturbs] at hstep
    simp only [Bool.false_eq_true, if_false] at hstep
    omega

omit [DecidableEq Thread] in
theorem potential_initial (hs : Initial s) : potential cfg s =
    Fintype.card Thread * (8 * Fintype.card Thread + 16) + ∑ u, (cfg.dest u).len := by
  have hweight : ∀ u, (s.call u).pc.weight (Fintype.card Thread) (cfg.dest u).len (stale s u) =
      (8 * Fintype.card Thread + 16) + (cfg.dest u).len := by
    intro u
    rw [hs.pc u]
    simp only [Pc.weight, openingWeight]
    omega
  unfold potential
  rw [Finset.sum_congr rfl fun u _ => hweight u, Finset.sum_add_distrib,
    Finset.sum_const_nat fun _ _ => rfl, Finset.card_univ]

end Steps

end DevenvTemplate.UseFile
