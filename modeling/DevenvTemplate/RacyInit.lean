import DevenvTemplate.AtomicCell
import DevenvTemplate.LabelledRuns
import Mathlib.Data.Set.Lattice
import Mathlib.Order.ConditionallyCompleteLattice.Basic

/-!
# Initialisation without a lock

An atomic variable that whoever finds it empty initialises: a call loads it, and if it is
empty runs the initialisation and stores what came out.  Calls may do so at the same
time, and any of the values may be the last.  What a call returns is still the outcome of
some run of the initialisation (`sound_run`), which the call knows of if the store
releases and the load acquires; and a thread publishes at most once if no run publishes
the empty value (`published_once`).
-/

namespace RacyInit

open AtomicCell LabelledRuns

/-! ### Calls -/

/-- A variable with values `V`, whose initialisation has an outcome in `O`, for calls that
    return a result in `R`. -/
structure Lazy (V O R : Type) where
  empty : V
  loadOrder : MemoryOrder
  storeOrder : MemoryOrder
  /-- What a call returns for a value that it finds. -/
  hit : V → R
  /-- What a run of the initialisation stores; `none` if it does not get so far. -/
  publish : O → Option V
  /-- What the call that ran it returns. -/
  result : O → R

/-- The same variable for other outcomes and results, as a wrapper makes it. -/
def Lazy.comap {V O O' R R' : Type} (lazy : Lazy V O R) (f : O' → O) (g : R → R') :
    Lazy V O' R' where
  empty := lazy.empty
  loadOrder := lazy.loadOrder
  storeOrder := lazy.storeOrder
  hit v := g (lazy.hit v)
  publish o := lazy.publish (f o)
  result o := g (lazy.result (f o))

inductive Pc (O R : Type) where
  | ready
  | init
  | store (o : O)
  | done (r : R)

inductive Event (V O : Type) where
  | loaded (v : V)
  | initialised (o : O)
  | stored
  | again                                         -- the next call of the thread

variable {Thread V O R : Type}

def Pc.next [DecidableEq V] (lazy : Lazy V O R) : Pc O R → Event V O → Option (Pc O R)
  | .ready, .loaded v => some (if v = lazy.empty then .init else .done (lazy.hit v))
  | .init, .initialised o =>
      some (if (lazy.publish o).isSome then .store o else .done (lazy.result o))
  | .store o, .stored => some (.done (lazy.result o))
  | .done _, .again => some .ready
  | _, _ => none

/-- A thread, with the outcomes that it knows the runs of. -/
structure Caller (O R : Type) where
  pc : Pc O R
  view : View (Set O)

structure State (Thread V O R : Type) where
  cell : Cell V (Set O)
  caller : Thread → Caller O R

abbrev Label (Thread V O : Type) := Thread × Event V O

section Threads

variable [DecidableEq Thread]

def State.setCaller (s : State Thread V O R) (t : Thread) (c : Caller O R) :
    State Thread V O R :=
  { s with caller := Function.update s.caller t c }

@[simp] theorem setCaller_caller (s : State Thread V O R) (t u : Thread) (c : Caller O R) :
    (s.setCaller t c).caller u = if u = t then c else s.caller u := by
  simp [State.setCaller, Function.update_apply]

@[simp] theorem setCaller_cell (s : State Thread V O R) (t : Thread) (c : Caller O R) :
    (s.setCaller t c).cell = s.cell := rfl

variable [DecidableEq V]

inductive Step (lazy : Lazy V O R) (s : State Thread V O R) :
    Label Thread V O → State Thread V O R → Prop
  | load {t : Thread} {place : Nat} {v : V} {view : View (Set O)} {pc : Pc O R}
      (hload : s.cell.load lazy.loadOrder (s.caller t).view place = some (v, view))
      (hnext : (s.caller t).pc.next lazy (.loaded v) = some pc) :
      Step lazy s (t, .loaded v) (s.setCaller t ⟨pc, view⟩)
  | init {t : Thread} {o : O} {pc : Pc O R}
      (hnext : (s.caller t).pc.next lazy (.initialised o) = some pc) :
      Step lazy s (t, .initialised o)
        (s.setCaller t ⟨pc, ⟨(s.caller t).view.place, insert o (s.caller t).view.knows⟩⟩)
  | store {t : Thread} {o : O} {v : V} {pc : Pc O R} (hpc : (s.caller t).pc = .store o)
      (hv : lazy.publish o = some v)
      (hnext : (s.caller t).pc.next lazy .stored = some pc) :
      Step lazy s (t, .stored)
        ({ s with cell := (s.cell.store lazy.storeOrder (s.caller t).view v).1 }.setCaller t
          ⟨pc, (s.cell.store lazy.storeOrder (s.caller t).view v).2⟩)
  | again {t : Thread} {pc : Pc O R} (hnext : (s.caller t).pc.next lazy .again = some pc) :
      Step lazy s (t, .again) (s.setCaller t ⟨pc, (s.caller t).view⟩)

omit [DecidableEq Thread] [DecidableEq V] in
structure Initial (lazy : Lazy V O R) (s : State Thread V O R) : Prop where
  cell : s.cell = Cell.new lazy.empty
  caller : ∀ t, s.caller t = ⟨.ready, ⟨0, ∅⟩⟩

end Threads

/-! ### What a call does -/

section Next

variable [DecidableEq V] {lazy : Lazy V O R} {pc pc' : Pc O R} {v : V} {o : O}

theorem next_loaded (h : pc.next lazy (.loaded v) = some pc') :
    (v = lazy.empty ∧ pc' = .init) ∨ (v ≠ lazy.empty ∧ pc' = .done (lazy.hit v)) := by
  cases pc with
  | ready =>
    simp only [Pc.next, Option.some.injEq] at h
    by_cases hv : v = lazy.empty
    · rw [if_pos hv] at h
      exact Or.inl ⟨hv, h.symm⟩
    · rw [if_neg hv] at h
      exact Or.inr ⟨hv, h.symm⟩
  | _ => simp [Pc.next] at h

theorem next_initialised (h : pc.next lazy (.initialised o) = some pc') :
    pc = .init ∧ (((lazy.publish o).isSome ∧ pc' = .store o) ∨
      (lazy.publish o = none ∧ pc' = .done (lazy.result o))) := by
  cases pc with
  | init =>
    simp only [Pc.next, Option.some.injEq] at h
    by_cases ho : (lazy.publish o).isSome
    · rw [if_pos ho] at h
      exact ⟨rfl, Or.inl ⟨ho, h.symm⟩⟩
    · rw [if_neg ho] at h
      exact ⟨rfl, Or.inr ⟨Option.not_isSome_iff_eq_none.mp ho, h.symm⟩⟩
  | _ => simp [Pc.next] at h

theorem next_stored (h : pc.next lazy .stored = some pc') :
    ∃ o, pc = .store o ∧ pc' = .done (lazy.result o) := by
  cases pc with
  | store o => exact ⟨o, rfl, (Option.some.inj h).symm⟩
  | _ => simp [Pc.next] at h

theorem next_again (h : pc.next lazy .again = some pc') : pc' = .ready := by
  cases pc with
  | done r => exact (Option.some.inj h).symm
  | _ => simp [Pc.next] at h

theorem next_done {r : R} {event : Event V O} (hevent : event ≠ .again) :
    (Pc.done r).next lazy event = none := by
  cases event with
  | again => exact absurd rfl hevent
  | _ => rfl

end Next

/-! ### What a call returns -/

/-- The initialisation was run with an outcome. -/
def Ran (labels : List (Label Thread V O)) (o : O) : Prop := ∃ t, (t, .initialised o) ∈ labels

/-- A result is that of a run of the call's own thread, or the hit of a published value. -/
def Returned (lazy : Lazy V O R) (labels : List (Label Thread V O)) (t : Thread) (knows : Set O)
    (r : R) : Prop :=
  (∃ o, (t, .initialised o) ∈ labels ∧ r = lazy.result o ∧ o ∈ knows) ∨
    ∃ o v, Ran labels o ∧ lazy.publish o = some v ∧ v ≠ lazy.empty ∧ r = lazy.hit v ∧
      (lazy.loadOrder.acquires = true → lazy.storeOrder.releases = true → o ∈ knows)

structure Sound (lazy : Lazy V O R) (labels : List (Label Thread V O))
    (s : State Thread V O R) : Prop where
  cell : ∀ m ∈ s.cell.messages, m.value = lazy.empty ∨
    ∃ o, Ran labels o ∧ lazy.publish o = some m.value ∧
      (lazy.storeOrder.releases = true → o ∈ m.released)
  storing : ∀ t o, (s.caller t).pc = .store o →
    (t, .initialised o) ∈ labels ∧ o ∈ (s.caller t).view.knows
  done : ∀ t r, (s.caller t).pc = .done r → Returned lazy labels t (s.caller t).view.knows r

theorem Ran.of_append {labels : List (Label Thread V O)} {o : O} (h : Ran labels o)
    (labels' : List (Label Thread V O)) : Ran (labels ++ labels') o := by
  rcases h with ⟨t, hmem⟩
  exact ⟨t, List.mem_append_left labels' hmem⟩

theorem Returned.of_append {lazy : Lazy V O R} {labels : List (Label Thread V O)} {t : Thread}
    {knows : Set O} {r : R} (h : Returned lazy labels t knows r)
    (labels' : List (Label Thread V O)) : Returned lazy (labels ++ labels') t knows r := by
  rcases h with ⟨o, hmem, hr⟩ | ⟨o, v, hran, hrest⟩
  · exact Or.inl ⟨o, List.mem_append_left labels' hmem, hr⟩
  · exact Or.inr ⟨o, v, hran.of_append labels', hrest⟩

section Steps

variable [DecidableEq Thread] [DecidableEq V] {lazy : Lazy V O R} {s s' : State Thread V O R}
  {labels : List (Label Thread V O)}

omit [DecidableEq Thread] [DecidableEq V] in
theorem sound_cell_append (hs : Sound lazy labels s) (label : Label Thread V O) :
    ∀ m ∈ s.cell.messages, m.value = lazy.empty ∨
      ∃ o, Ran (labels ++ [label]) o ∧ lazy.publish o = some m.value ∧
        (lazy.storeOrder.releases = true → o ∈ m.released) := by
  intro m hm
  rcases hs.cell m hm with hempty | ⟨o, hran, hrest⟩
  · exact Or.inl hempty
  · exact Or.inr ⟨o, hran.of_append [label], hrest⟩

omit [DecidableEq V] in
/-- It is enough to look at the thread that moves. -/
theorem sound_of_moved {label : Label Thread V O} {t : Thread} {c : Caller O R}
    {cell : Cell V (Set O)} (hs : Sound lazy labels s)
    (hcell : ∀ m ∈ cell.messages, m.value = lazy.empty ∨
      ∃ o, Ran (labels ++ [label]) o ∧ lazy.publish o = some m.value ∧
        (lazy.storeOrder.releases = true → o ∈ m.released))
    (hstoring : ∀ o, c.pc = .store o →
      (t, .initialised o) ∈ labels ++ [label] ∧ o ∈ c.view.knows)
    (hdone : ∀ r, c.pc = .done r → Returned lazy (labels ++ [label]) t c.view.knows r) :
    Sound lazy (labels ++ [label]) ({ s with cell }.setCaller t c) := by
  refine ⟨hcell, ?_, ?_⟩
  · intro u o hpc
    rw [setCaller_caller] at hpc ⊢
    by_cases hu : u = t
    · rw [if_pos hu] at hpc ⊢
      rw [hu]
      exact hstoring o hpc
    · rw [if_neg hu] at hpc ⊢
      obtain ⟨hmem, hknows⟩ := hs.storing u o hpc
      exact ⟨List.mem_append_left _ hmem, hknows⟩
  · intro u r hpc
    rw [setCaller_caller] at hpc ⊢
    by_cases hu : u = t
    · rw [if_pos hu] at hpc ⊢
      rw [hu]
      exact hdone r hpc
    · rw [if_neg hu] at hpc ⊢
      exact (hs.done u r hpc).of_append _

theorem sound_step {label : Label Thread V O} (hs : Sound lazy labels s)
    (h : Step lazy s label s') : Sound lazy (labels ++ [label]) s' := by
  cases h with
  | @load t place v view pc hload hnext =>
    apply sound_of_moved (s := s) hs (sound_cell_append hs _)
    · intro o hpc
      rcases next_loaded hnext with ⟨_, rfl⟩ | ⟨_, rfl⟩
      all_goals simp at hpc
    · intro r hpc
      rcases next_loaded hnext with ⟨_, rfl⟩ | ⟨hne, rfl⟩
      · simp at hpc
      · -- the value was published by some run
        rcases Cell.load_eq_some.mp hload with ⟨_, m, hm, hvalue, hview⟩
        rcases hs.cell m (List.mem_of_getElem? hm) with hempty | ⟨o, hran, hpublish, hreleased⟩
        · exact absurd (hvalue.symm.trans hempty) hne
        · rw [hvalue] at hpublish
          refine Or.inr ⟨o, v, hran.of_append _, hpublish, hne, (Pc.done.inj hpc).symm, ?_⟩
          intro hacquires hreleases
          rw [hview]
          simp only [Cell.learn, hacquires, if_true]
          exact Or.inr (hreleased hreleases)
  | @init t o pc hnext =>
    obtain ⟨_, hpc⟩ := next_initialised hnext
    apply sound_of_moved (s := s) hs (sound_cell_append hs _)
    · intro o' hstore
      rcases hpc with ⟨_, rfl⟩ | ⟨_, rfl⟩
      · rw [← Pc.store.inj hstore]
        exact ⟨by simp, Set.mem_insert o _⟩
      · simp at hstore
    · intro r hdone
      rcases hpc with ⟨_, rfl⟩ | ⟨_, rfl⟩
      · simp at hdone
      · exact Or.inl ⟨o, by simp, (Pc.done.inj hdone).symm, Set.mem_insert o _⟩
  | @store t o v pc hpc hv hnext =>
    obtain ⟨hmem, hknows⟩ := hs.storing t o hpc
    apply sound_of_moved (s := s) hs
    · intro m hm
      rcases Cell.mem_messages.mp hm with hm | rfl
      · exact sound_cell_append hs _ m hm
      · refine Or.inr ⟨o, Ran.of_append ⟨t, hmem⟩ _, hv, ?_⟩
        intro hreleases
        simpa [Cell.store, hreleases] using hknows
    · intro o' hstore
      rcases next_stored hnext with ⟨_, _, rfl⟩
      simp at hstore
    · intro r hdone
      rcases next_stored hnext with ⟨o', hpc', rfl⟩
      rw [hpc] at hpc'
      rw [← Pc.store.inj hpc'] at hdone
      exact Or.inl ⟨o, List.mem_append_left _ hmem, (Pc.done.inj hdone).symm, hknows⟩
  | @again t pc hnext =>
    apply sound_of_moved (s := s) hs (sound_cell_append hs _)
    · intro o hpc
      rw [next_again hnext] at hpc
      simp at hpc
    · intro r hpc
      rw [next_again hnext] at hpc
      simp at hpc

/-- A call that has returned stays so, until the thread begins another one. -/
theorem done_step {label : Label Thread V O} (h : Step lazy s label s')
    (hlabel : label.2 ≠ .again) {t : Thread} {r : R} (hpc : (s.caller t).pc = .done r) :
    (s'.caller t).pc = .done r := by
  have hmoved : ∀ event pc, (s.caller t).pc.next lazy event = some pc → event ≠ .again → False := by
    intro event pc hnext hevent
    rw [hpc, next_done hevent] at hnext
    simp at hnext
  have hother : ∀ (u : Thread) (c : Caller O R), t ≠ u → ((s.setCaller u c).caller t).pc = .done r := by
    intro u c hu
    rw [setCaller_caller, if_neg hu]
    exact hpc
  cases h with
  | @load u _ _ _ _ _ hnext | @init u _ _ hnext | @store u _ _ _ _ _ hnext =>
    by_cases hu : t = u
    · exact absurd (hu ▸ hnext) (fun hnext => hmoved _ _ hnext hlabel)
    · exact hother u _ hu
  | again => exact absurd rfl hlabel

omit [DecidableEq Thread] [DecidableEq V] in
theorem sound_initial (hs : Initial lazy s) : Sound lazy [] s := by
  refine ⟨?_, ?_, ?_⟩
  · intro m hm
    rw [hs.cell] at hm
    rcases Cell.mem_messages.mp hm with hm | rfl
    · simp [Cell.new] at hm
    · exact Or.inl rfl
  · intro t o hpc
    rw [hs.caller t] at hpc
    simp at hpc
  · intro t r hpc
    rw [hs.caller t] at hpc
    simp at hpc

/-- **A result is the outcome of some run of the initialisation.** -/
theorem sound_run {s₀ : State Thread V O R} (hs : Initial lazy s₀)
    (hrun : Run (Step lazy) s₀ labels s) : Sound lazy labels s := by
  induction hrun with
  | nil => exact sound_initial hs
  | snoc _ step ih => exact sound_step ih step

/-- A thread alone initialises the variable and returns what came out. -/
theorem exists_alone (hs : Initial lazy s) (t : Thread) {o : O} {v : V}
    (hv : lazy.publish o = some v) : ∃ labels s', Run (Step lazy) s labels s' ∧
      (s'.caller t).pc = .done (lazy.result o) ∧ s'.cell.latest.value = v ∧
      (s'.caller t).view.place = s'.cell.last ∧
      ∀ label ∈ labels, label.2 ∈ [.loaded lazy.empty, .initialised o, .stored] := by
  have hcaller := hs.caller t
  have hempty : s.cell.latest.value = lazy.empty := by
    rw [hs.cell]
    rfl
  have hload : s.cell.load lazy.loadOrder (s.caller t).view s.cell.last =
      some (s.cell.latest.value, _) :=
    Cell.load_last (by rw [hcaller]; exact Nat.zero_le _)
  rw [hempty] at hload
  have hloaded : (s.caller t).pc.next lazy (.loaded lazy.empty) = some .init := by
    rw [hcaller]
    exact congrArg some (if_pos rfl)
  have hinit : ∀ view, ((s.setCaller t ⟨.init, view⟩).caller t).pc.next lazy (.initialised o) =
      some (.store o) := by
    intro view
    rw [setCaller_caller, if_pos rfl]
    simp [Pc.next, hv]
  have hrun := Run.snoc (Run.single (Step.load hload hloaded)) (Step.init (hinit _))
  have hstore := hrun.snoc (Step.store (t := t) (o := o) (by simp) hv
    (by rw [setCaller_caller, if_pos rfl]; rfl))
  refine ⟨_, _, hstore, ?_, rfl, ?_, ?_⟩
  · simp
  · simp [Cell.store, Cell.last]
  · simp

/-- Its next call finds the value. -/
theorem exists_hit (hs : Initial lazy s) (t : Thread) {o : O} {v : V}
    (hv : lazy.publish o = some v) (hne : v ≠ lazy.empty) :
    ∃ labels s', Run (Step lazy) s labels s' ∧ (s'.caller t).pc = .done (lazy.hit v) := by
  obtain ⟨labels, s', hrun, hpc, hvalue, hplace, _⟩ := exists_alone hs t hv
  have hagain : (s'.caller t).pc.next lazy .again = some .ready := by
    rw [hpc]
    rfl
  let s'' := s'.setCaller t ⟨.ready, (s'.caller t).view⟩
  have hready : s''.caller t = ⟨.ready, (s'.caller t).view⟩ := by
    simp [s'']
  have hload : s''.cell.load lazy.loadOrder (s''.caller t).view s''.cell.last =
      some (s''.cell.latest.value, _) := Cell.load_last (by rw [hready]; exact hplace.le)
  have hloaded : (s''.caller t).pc.next lazy (.loaded s''.cell.latest.value) =
      some (.done (lazy.hit v)) := by
    have hlatest : s''.cell.latest.value = v := hvalue
    rw [hready, hlatest]
    exact congrArg some (if_neg hne)
  exact ⟨_, _, (hrun.snoc (Step.again hagain)).snoc (Step.load hload hloaded), by simp⟩

/-! ### Once for each thread -/

/-- Only the first message is empty, and nobody is ahead of the last. -/
structure Kept (lazy : Lazy V O R) (s : State Thread V O R) : Prop where
  values : ∀ place m, 0 < place → s.cell.messages[place]? = some m → m.value ≠ lazy.empty
  places : ∀ t, (s.caller t).view.place ≤ s.cell.last

/-- A thread that has published does not find the variable empty again. -/
def Published (t : Thread) (s : State Thread V O R) : Prop :=
  (∃ o, (s.caller t).pc = .store o) ∨
    (0 < (s.caller t).view.place ∧ (s.caller t).pc ≠ .init)

/-- A run of the initialisation by the thread that is going to store. -/
def publishes (lazy : Lazy V O R) (t : Thread) : Label Thread V O → Bool
  | (u, .initialised o) => decide (u = t) && (lazy.publish o).isSome
  | _ => false

theorem kept_step {label : Label Thread V O} (hne : ∀ o, lazy.publish o ≠ some lazy.empty)
    (hs : Kept lazy s) (h : Step lazy s label s') : Kept lazy s' := by
  have hplaces : ∀ (t : Thread) (c : Caller O R), c.view.place ≤ s.cell.last →
      ∀ u, ((s.setCaller t c).caller u).view.place ≤ s.cell.last := by
    intro t c hc u
    rw [setCaller_caller]
    split
    · exact hc
    · exact hs.places u
  cases h with
  | load hload =>
    refine ⟨hs.values, hplaces _ _ ?_⟩
    obtain ⟨hplace, hle⟩ := Cell.place_of_load hload
    exact hplace ▸ hle
  | init => exact ⟨hs.values, hplaces _ _ (hs.places _)⟩
  | again => exact ⟨hs.values, hplaces _ _ (hs.places _)⟩
  | @store t o v pc hpc hv hnext =>
    constructor
    · intro place m hplace hm
      by_cases hle : place ≤ s.cell.last
      · rw [setCaller_cell, Cell.store, Cell.messages_mk_of_le _ _ hle] at hm
        exact hs.values place m hplace hm
      · intro heq
        rw [Cell.eq_of_messages_mk _ (Nat.not_le.mp hle) hm] at heq
        exact hne o (hv.trans (congrArg some heq))
    · intro u
      rw [setCaller_caller]
      split
      · simp [Cell.store, Cell.last]
      · have := hs.places u
        simp only [setCaller_cell, Cell.store, Cell.last_mk, Cell.length_messages]
        omega

omit [DecidableEq Thread] [DecidableEq V] in
theorem kept_initial (hs : Initial lazy s) : Kept lazy s := by
  constructor
  · intro place m hplace hm
    rw [hs.cell, Cell.messages, Cell.new, List.getElem?_append_right (Nat.zero_le _),
      List.getElem?_eq_none (by simp only [List.length_singleton, List.length_nil]; omega)] at hm
    simp at hm
  · intro t
    rw [hs.caller t]
    exact Nat.zero_le _

theorem published_of_publishes {label : Label Thread V O} {t : Thread}
    (h : Step lazy s label s') (hp : publishes lazy t label = true) : Published t s' := by
  cases h with
  | @init u o pc hnext =>
    obtain ⟨hu, ho⟩ := Bool.and_eq_true_iff.mp hp
    have hsame := of_decide_eq_true hu
    subst hsame
    obtain ⟨_, hpc⟩ := next_initialised hnext
    refine Or.inl ⟨o, ?_⟩
    rw [setCaller_caller, if_pos rfl]
    rcases hpc with ⟨_, rfl⟩ | ⟨hnone, _⟩
    · rfl
    · simp [hnone] at ho
  | _ => simp [publishes] at hp

theorem published_step {label : Label Thread V O} {t : Thread} (hs : Kept lazy s)
    (hpublished : Published t s) (h : Step lazy s label s') : Published t s' := by
  have hother : ∀ (u : Thread) (c : Caller O R) (cell : Cell V (Set O)), u ≠ t →
      Published t ({ s with cell }.setCaller u c) := by
    intro u c cell hu
    unfold Published
    rw [setCaller_caller, if_neg (Ne.symm hu)]
    exact hpublished
  cases h with
  | @load u place v view pc hload hnext =>
    by_cases hu : u = t
    · subst hu
      rcases hpublished with ⟨o, hpc⟩ | ⟨hplace, _⟩
      · simp [hpc, Pc.next] at hnext
      · -- a value behind the first
        rcases Cell.load_eq_some.mp hload with ⟨hle, m, hm, hvalue, rfl⟩
        have hne := hs.values place m (Nat.lt_of_lt_of_le hplace hle) hm
        refine Or.inr ?_
        rw [setCaller_caller, if_pos rfl]
        rcases next_loaded hnext with ⟨hempty, _⟩ | ⟨_, rfl⟩
        · exact absurd (hvalue.trans hempty) hne
        · exact ⟨Nat.lt_of_lt_of_le hplace hle, nofun⟩
    · exact hother u _ _ hu
  | @init u o pc hnext =>
    by_cases hu : u = t
    · subst hu
      have hinit := (next_initialised hnext).1
      rcases hpublished with ⟨o, hpc⟩ | ⟨_, hpc⟩
      · simp [hinit] at hpc
      · exact absurd hinit hpc
    · exact hother u _ _ hu
  | @store u o v pc hpc hv hnext =>
    by_cases hu : u = t
    · subst hu
      rcases next_stored hnext with ⟨_, _, rfl⟩
      refine Or.inr ?_
      rw [setCaller_caller, if_pos rfl]
      exact ⟨Nat.succ_pos _, nofun⟩
    · exact hother u _ _ hu
  | @again u pc hnext =>
    by_cases hu : u = t
    · subst hu
      rcases hpublished with ⟨o, hpc⟩ | ⟨hplace, _⟩
      · simp [hpc, Pc.next] at hnext
      · refine Or.inr ?_
        rw [setCaller_caller, if_pos rfl, next_again hnext]
        exact ⟨hplace, nofun⟩
    · exact hother u _ _ hu

theorem not_publishes {label : Label Thread V O} {t : Thread} (hpublished : Published t s)
    (h : Step lazy s label s') : publishes lazy t label = false := by
  cases h with
  | @init u o pc hnext =>
    by_cases hu : u = t
    · subst hu
      have hinit := (next_initialised hnext).1
      rcases hpublished with ⟨o, hpc⟩ | ⟨_, hpc⟩
      · simp [hinit] at hpc
      · exact absurd hinit hpc
    · simp [publishes, hu]
  | _ => rfl

/-- **A thread publishes at most once**, if no run publishes the empty value. -/
theorem published_once {s₀ : State Thread V O R} (hne : ∀ o, lazy.publish o ≠ some lazy.empty)
    (hs : Initial lazy s₀) (hrun : Run (Step lazy) s₀ labels s) (t : Thread) :
    labels.countP (publishes lazy t) ≤ 1 := by
  have hkept : ∀ (s : State Thread V O R) label s', Kept lazy s → Step lazy s label s' → Kept lazy s' :=
    fun _ _ _ hs h => kept_step hne hs h
  have hafter : ∀ (s : State Thread V O R) label s', Kept lazy s → Step lazy s label s' →
      publishes lazy t label = true → Published t s' :=
    fun _ _ _ _ h hp => published_of_publishes h hp
  have hno : ∀ (s : State Thread V O R) label s', Kept lazy s → Published t s → Step lazy s label s' →
      publishes lazy t label = false :=
    fun _ _ _ _ hpublished h => not_publishes hpublished h
  exact (hrun.countP_le_one hkept hafter
    (fun _ _ _ hs hpublished h => published_step hs hpublished h) hno (kept_initial hs)).1

end Steps

end RacyInit
