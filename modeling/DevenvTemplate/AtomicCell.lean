import Mathlib.Order.Lattice
import Mathlib.Tactic.Common

/-!
# One atomic variable

An atomic variable with release and acquire orderings: the values it has held, in
modification order, each with what its writer passed on.  A thread has a view, the
place in that order behind which it does not read again; a load may return any value
from there on, and not only the last one.  Read-modify-write operations work on the last
value.  Knowledge is passed from a release to the acquire that reads it.
-/

namespace AtomicCell

variable {V K : Type}

inductive MemoryOrder where
  | relaxed
  | acquire
  | release
  | acqRel
deriving DecidableEq, Repr

def MemoryOrder.acquires : MemoryOrder → Bool
  | .acquire | .acqRel => true
  | .relaxed | .release => false

def MemoryOrder.releases : MemoryOrder → Bool
  | .release | .acqRel => true
  | .relaxed | .acquire => false

/-- A value with the knowledge that its writer released. -/
structure Message (V K : Type) where
  value : V
  released : K

/-- The messages of a variable: the earlier ones, oldest first, and the latest. -/
structure Cell (V K : Type) where
  earlier : List (Message V K)
  latest : Message V K

/-- The message a thread has seen last, by its place, and what the thread knows. -/
structure View (K : Type) where
  place : Nat
  knows : K

namespace Cell

def messages (c : Cell V K) : List (Message V K) := c.earlier ++ [c.latest]

/-- The place of the latest message. -/
def last (c : Cell V K) : Nat := c.earlier.length

def new [Bot K] (v : V) : Cell V K := ⟨[], ⟨v, ⊥⟩⟩

section Operations

variable [SemilatticeSup K]

/-- What a thread knows after it read a message. -/
def learn (order : MemoryOrder) (knows : K) (m : Message V K) : K :=
  if order.acquires then knows ⊔ m.released else knows

/-- `load`, of the message at a place. -/
def load (c : Cell V K) (order : MemoryOrder) (view : View K) (place : Nat) :
    Option (V × View K) :=
  if view.place ≤ place then
    c.messages[place]?.map fun m => (m.value, ⟨place, learn order view.knows m⟩)
  else none

/-- `store`. -/
def store [Bot K] (c : Cell V K) (order : MemoryOrder) (view : View K) (v : V) : Cell V K × View K :=
  (⟨c.messages, ⟨v, if order.releases then view.knows else ⊥⟩⟩, ⟨c.last + 1, view.knows⟩)

/-- A `compare_exchange` that finds the expected value.  It continues the releases of the
    message it replaces. -/
def exchange [DecidableEq V] (c : Cell V K) (order : MemoryOrder) (view : View K)
    (expected v : V) : Option (Cell V K × View K) :=
  if c.latest.value = expected then
    let knows := learn order view.knows c.latest
    let released := if order.releases then c.latest.released ⊔ knows else c.latest.released
    some (⟨c.messages, ⟨v, released⟩⟩, ⟨c.last + 1, knows⟩)
  else none

end Operations

/-! ### Messages -/

@[simp] theorem length_messages (c : Cell V K) : c.messages.length = c.last + 1 := by
  simp [messages, last]

theorem mem_messages {c : Cell V K} {m : Message V K} :
    m ∈ c.messages ↔ m ∈ c.earlier ∨ m = c.latest := by
  simp [messages]

theorem messages_last (c : Cell V K) : c.messages[c.last]? = some c.latest := by
  simp [messages, last]

theorem messages_earlier (c : Cell V K) {place : Nat} (h : place < c.last) :
    c.messages[place]? = c.earlier[place]? :=
  List.getElem?_append_left h

theorem last_mk (earlier : List (Message V K)) (latest : Message V K) :
    (Cell.mk earlier latest).last = earlier.length := rfl

/-- The messages stay where they are when one is added. -/
theorem messages_mk_of_le (c : Cell V K) (m : Message V K) {place : Nat} (h : place ≤ c.last) :
    (Cell.mk c.messages m).messages[place]? = c.messages[place]? := by
  rw [messages_earlier]
  rw [last_mk, length_messages]
  omega

/-- Behind the old ones there is only the one that was added. -/
theorem eq_of_messages_mk (c : Cell V K) {m m' : Message V K} {place : Nat} (h : c.last < place)
    (hm : (Cell.mk c.messages m).messages[place]? = some m') : m' = m := by
  rw [messages, List.getElem?_append_right (by rw [length_messages]; omega)] at hm
  exact List.mem_singleton.mp (List.mem_of_getElem? hm)

/-! ### Loads -/

section Lemmas

variable [SemilatticeSup K] {c : Cell V K} {order : MemoryOrder} {view view' : View K}
  {place : Nat} {v : V}

theorem load_eq_some : c.load order view place = some (v, view') ↔
    view.place ≤ place ∧ ∃ m, c.messages[place]? = some m ∧ m.value = v ∧
      view' = ⟨place, learn order view.knows m⟩ := by
  unfold load
  by_cases hplace : view.place ≤ place
  · rw [if_pos hplace, Option.map_eq_some_iff]
    simp only [Prod.mk.injEq, hplace, true_and]
    constructor
    · rintro ⟨m, hm, hv, hview⟩
      exact ⟨m, hm, hv, hview.symm⟩
    · rintro ⟨m, hm, hv, hview⟩
      exact ⟨m, hm, hv, hview.symm⟩
  · rw [if_neg hplace]
    constructor
    · intro h
      cases h
    · intro h
      exact absurd h.1 hplace

theorem place_of_load (h : c.load order view place = some (v, view')) :
    view'.place = place ∧ place ≤ c.last := by
  rcases load_eq_some.mp h with ⟨_, m, hm, _, rfl⟩
  rcases List.getElem?_eq_some_iff.mp hm with ⟨hlt, _⟩
  rw [length_messages] at hlt
  exact ⟨rfl, Nat.le_of_lt_succ hlt⟩

/-- A load from the last place returns the latest value. -/
theorem load_last (hview : view.place ≤ c.last) :
    c.load order view c.last = some (c.latest.value, ⟨c.last, learn order view.knows c.latest⟩) :=
  load_eq_some.mpr ⟨hview, c.latest, c.messages_last, rfl, rfl⟩

theorem value_of_load_last (h : c.load order view c.last = some (v, view')) :
    v = c.latest.value := by
  rcases load_eq_some.mp h with ⟨_, m, hm, hv, _⟩
  rw [messages_last] at hm
  cases hm
  exact hv.symm

/-- A thread does not forget. -/
theorem knows_le_learn (order : MemoryOrder) (knows : K) (m : Message V K) :
    knows ≤ learn order knows m := by
  unfold learn
  split
  · exact le_sup_left
  · exact le_refl knows

theorem knows_le_of_load (h : c.load order view place = some (v, view')) :
    view.knows ≤ view'.knows := by
  rcases load_eq_some.mp h with ⟨_, m, _, _, rfl⟩
  exact knows_le_learn order view.knows m

/-- An acquire learns what the message it reads released. -/
theorem released_le_of_acquire (horder : order.acquires = true)
    (h : c.load order view place = some (v, view')) :
    ∃ m ∈ c.messages, m.value = v ∧ c.messages[place]? = some m ∧ m.released ≤ view'.knows := by
  rcases load_eq_some.mp h with ⟨_, m, hm, hv, rfl⟩
  refine ⟨m, List.mem_of_getElem? hm, hv, hm, ?_⟩
  rw [learn, if_pos horder]
  exact le_sup_right

theorem knows_le_of_exchange [DecidableEq V] {c' : Cell V K} {expected v' : V}
    (h : c.exchange order view expected v' = some (c', view')) : view.knows ≤ view'.knows := by
  unfold exchange at h
  split at h
  · cases h
    exact knows_le_learn order view.knows c.latest
  · cases h

end Lemmas

end Cell

end AtomicCell
