import DevenvTemplate.FindCommand
import Mathlib.Data.Set.Insert

/-!
# What a complete run of `find ... -exec rm -rf {} +` does

The traversal reads a tree that its own removals change.  `Progress` is the
invariant that makes this harmless: whatever is still to be visited is apart from
everything queued or removed, so it looks as it did at the start, and everything
the command selects on the initial tree is queued, removed, or below something
still to be visited.  A complete run has therefore removed exactly what the
initial tree selects (`findRun_swept`).
-/

namespace FindUtility

open FileTrees

variable {N : Type}

/-- `t` is `t₀` without the entries at or below `gone`.  Nothing else differs,
    except that the directory of something gone carries a stamp from `now` on. -/
structure Swept (now : Time) (t₀ t : StampedTree N) (gone : Set (Path N)) : Prop where
  removed : ∀ q, (∃ g ∈ gone, g <+: q) → t.entry q = none
  kept : ∀ q, (¬ ∃ g ∈ gone, g <+: q) →
    t.entry q = t₀.entry q ∨
      (∃ g ∈ gone, q = g.dropLast) ∧
        ∃ m m', now ≤ m' ∧ t₀.entry q = some (.dir m) ∧ t.entry q = some (.dir m')

namespace Swept

theorem refl (now : Time) (t : StampedTree N) : Swept now t t ∅ := by
  refine ⟨?_, fun q _ => Or.inl rfl⟩
  intro q hq
  obtain ⟨g, hg, _⟩ := hq
  exact absurd hg (Set.notMem_empty g)

variable {now : Time} {t₀ t : StampedTree N} {gone : Set (Path N)}

theorem entry_eq_none_iff (h : Swept now t₀ t gone) (q : Path N) :
    t.entry q = none ↔ t₀.entry q = none ∨ ∃ g ∈ gone, g <+: q := by
  by_cases hq : ∃ g ∈ gone, g <+: q
  · simp [h.removed q hq, hq]
  · rcases h.kept q hq with heq | ⟨-, m, m', -, h₀, h'⟩
    · simp [heq, hq]
    · simp [h₀, h', hq]

theorem entry_eq_of_apart (h : Swept now t₀ t gone) {p : Path N}
    (hp : ∀ g ∈ gone, Apart p g) : t.entry p = t₀.entry p := by
  have hnot : ¬ ∃ g ∈ gone, g <+: p := by
    intro hex
    rcases hex with ⟨g, hg, hle⟩
    exact (hp g hg).2 hle
  rcases h.kept p hnot with heq | ⟨hparent, -⟩
  · exact heq
  · rcases hparent with ⟨g, hg, rfl⟩
    exact absurd (List.dropLast_prefix g) (hp g hg).1

theorem childNames_eq_of_apart [DecidableEq N] (h : Swept now t₀ t gone) {p : Path N}
    (hp : ∀ g ∈ gone, Apart p g) (n : N) : n ∈ t.childNames p ↔ n ∈ t₀.childNames p := by
  rw [t.mem_childNames, t₀.mem_childNames,
    h.entry_eq_of_apart (fun g hg => (hp g hg).child n)]

theorem removeTree [DecidableEq N] (h : Swept now t₀ t gone) {p : Path N} (hp : p ≠ [])
    {clock : Time} (hclock : now ≤ clock) :
    Swept now t₀ (t.removeTree clock p) (insert p gone) := by
  constructor
  · intro q hq
    rw [FileTree.entry_removeTree _ _ _ _ hp]
    obtain ⟨g, hg, hle⟩ := hq
    rcases Set.mem_insert_iff.mp hg with rfl | hgone
    · rw [if_pos hle]
    · rw [h.removed q ⟨g, hgone, hle⟩]
      simp
  · intro q hq
    have hpq : ¬ p <+: q := fun hle => hq ⟨p, Set.mem_insert p gone, hle⟩
    have hnot : ¬ ∃ g ∈ gone, g <+: q := by
      intro hex
      rcases hex with ⟨g, hg, hle⟩
      exact hq ⟨g, Set.mem_insert_of_mem p hg, hle⟩
    rw [FileTree.entry_removeTree _ _ _ _ hp, if_neg hpq]
    by_cases hcond : q = p.dropLast ∧ (t.entry p).isSome
    · -- `q` held `p`, so it is a directory and gets a new stamp
      rw [if_pos hcond]
      obtain ⟨m₁, hm₁⟩ : ∃ m₁, t.entry q = some (.dir m₁) := by
        refine t.dir_of_proper_prefix (q := p) ?_ ?_ hcond.2
        · exact hcond.1 ▸ List.dropLast_prefix p
        · rintro rfl
          exact hpq List.prefix_rfl
      refine Or.inr ⟨⟨p, Set.mem_insert p gone, hcond.1⟩, ?_⟩
      rw [hm₁]
      rcases h.kept q hnot with heq | ⟨-, m, m', -, h₀, -⟩
      · exact ⟨m₁, clock, hclock, heq ▸ hm₁, rfl⟩
      · exact ⟨m, clock, hclock, h₀, rfl⟩
    · rw [if_neg hcond]
      rcases h.kept q hnot with heq | ⟨⟨g, hg, hgq⟩, hstamp⟩
      · exact Or.inl heq
      · exact Or.inr ⟨⟨g, Set.mem_insert_of_mem p hg, hgq⟩, hstamp⟩

end Swept

/-! ### The invariant of a run -/

variable [DecidableEq N]

/-- The invariant of a run that started on `t₀`, with `gone` the operands removed
    so far. -/
structure Progress (c : FindCommand N) (now : Time) (t₀ : StampedTree N)
    (state : FindState N) (gone : Set (Path N)) : Prop where
  swept : Swept now t₀ state.tree gone
  selected : ∀ p, p ∈ state.operands ∨ p ∈ gone → Selected c now t₀ p
  reached : ∀ x ∈ state.todo, ∃ s ∈ c.startingPoints,
    x.2 = x.1.length - s.length ∧ Reached c now t₀ s x.1
  apart : state.todo.Pairwise fun x y => Apart x.1 y.1
  untouched : ∀ x ∈ state.todo, ∀ p, p ∈ state.operands ∨ p ∈ gone → Apart x.1 p
  covered : ∀ p, Selected c now t₀ p →
    (p ∈ state.operands ∨ p ∈ gone) ∨ ∃ x ∈ state.todo, x.1 <+: p

variable {c : FindCommand N} {now : Time} {t₀ : StampedTree N}

theorem progress_start (hc : c.Sweeping) : Progress c now t₀ (c.start t₀) ∅ where
  swept := Swept.refl now t₀
  selected p hp := by simp [FindCommand.start] at hp
  reached x hx := by
    simp only [FindCommand.start, List.mem_map] at hx
    rcases hx with ⟨s, hs, rfl⟩
    exact ⟨s, hs, by simp, reached_self c now t₀ s⟩
  apart := by
    simp only [FindCommand.start, List.pairwise_map]
    exact hc.apart
  untouched x _ p hp := by simp [FindCommand.start] at hp
  covered p hp := by
    obtain ⟨s, hs, hreach, _⟩ := hp
    exact Or.inr ⟨(s, 0), by simpa [FindCommand.start] using hs, hreach.1⟩

theorem selected_ne_nil (hc : c.Sweeping) {p : Path N} (h : Selected c now t₀ p) : p ≠ [] := by
  rintro rfl
  rcases h with ⟨s, _, _, e, _, hqueue⟩
  simp only [List.length_nil, Nat.zero_sub] at hqueue
  rw [hc.root_not_queued] at hqueue
  cases hqueue

/-- A pathname still to be visited looks as it did at the start. -/
theorem Progress.entry_eq {state : FindState N} {gone : Set (Path N)}
    (h : Progress c now t₀ state gone) {x : Path N × Nat} (hx : x ∈ state.todo) :
    state.tree.entry x.1 = t₀.entry x.1 :=
  h.swept.entry_eq_of_apart fun g hg => h.untouched x hx g (Or.inr hg)

theorem progress_missing {t : StampedTree N} {p : Path N} {level : Nat}
    {todo : List (Path N × Nat)} {operands : List (Path N)} {gone : Set (Path N)}
    (h : Progress c now t₀ ⟨t, (p, level) :: todo, operands⟩ gone) (hp : t.entry p = none) :
    Progress c now t₀ ⟨t, todo, operands⟩ gone where
  swept := h.swept
  selected := h.selected
  reached x hx := h.reached x (List.mem_cons_of_mem _ hx)
  apart := (List.pairwise_cons.mp h.apart).2
  untouched x hx := h.untouched x (List.mem_cons_of_mem _ hx)
  covered q hq := by
    rcases h.covered q hq with hdone | ⟨x, hx, hle⟩
    · exact Or.inl hdone
    · rcases List.mem_cons.mp hx with rfl | hx
      · -- nothing below a missing pathname is selected
        rcases hq with ⟨_, _, _, e, he, _⟩
        have h₀ : t₀.entry p = none := (h.entry_eq List.mem_cons_self) ▸ hp
        rw [t₀.none_of_prefix hle h₀] at he
        cases he
      · exact Or.inr ⟨x, hx, hle⟩

theorem progress_remove (hc : c.Sweeping) {t : StampedTree N} {p : Path N} {clock : Time}
    {todo : List (Path N × Nat)} {operands : List (Path N)} {gone : Set (Path N)}
    (h : Progress c now t₀ ⟨t, todo, p :: operands⟩ gone) (hclock : now ≤ clock) :
    Progress c now t₀ ⟨t.removeTree clock p, todo, operands⟩ (insert p gone) := by
  have hmove : ∀ q, (q ∈ operands ∨ q ∈ insert p gone) ↔ (q ∈ p :: operands ∨ q ∈ gone) := by
    intro q
    rw [Set.mem_insert_iff, List.mem_cons]
    tauto
  have hne : p ≠ [] := selected_ne_nil hc (h.selected p (Or.inl List.mem_cons_self))
  refine ⟨h.swept.removeTree hne hclock, ?_, h.reached, h.apart, ?_, ?_⟩
  · intro q hq
    exact h.selected q ((hmove q).mp hq)
  · intro x hx q hq
    exact h.untouched x hx q ((hmove q).mp hq)
  · intro q hq
    rw [hmove]
    exact h.covered q hq

/-- Visiting `p` covers `p` itself and hands everything selected below it to the
    names just read. -/
theorem covered_visit (hc : c.Sweeping) {s p q : Path N} {level : Nat} {e : Entry Time Time}
    (hs : s ∈ c.startingPoints) (hlevel : level = p.length - s.length) (hsp : s <+: p)
    (he : t₀.entry p = some e) (hq : Selected c now t₀ q) (hle : p <+: q) :
    (q = p ∧ c.queues now level p e = true) ∨
      c.descends now level p e = true ∧ ∃ n ∈ t₀.childNames p, p ++ [n] <+: q := by
  rcases hq with ⟨s', hs', hreach, e', he', hqueue⟩
  obtain rfl := hc.start_unique hs hs' (hsp.trans hle) hreach.1
  rcases prefix_eq_or_child hle with rfl | ⟨n, hn⟩
  · rw [he] at he'
    obtain rfl := Option.some.inj he'
    exact Or.inl ⟨rfl, hlevel ▸ hqueue⟩
  · have hne : p ≠ q := by
      rintro rfl
      exact not_child_prefix_self p n hn
    refine Or.inr ⟨hlevel ▸ hreach.2 p e hsp hle hne he, n, ?_, hn⟩
    rw [t₀.mem_childNames]
    exact t₀.isSome_of_prefix hn (by simp [he'])

theorem mem_operands_visit (level : Nat) (p q : Path N) (e : Entry Time Time)
    (operands : List (Path N)) :
    q ∈ operands ++ (if c.queues now level p e then [p] else []) ↔
      q ∈ operands ∨ q = p ∧ c.queues now level p e = true := by
  by_cases hqueue : c.queues now level p e = true
  · simp [hqueue]
  · simp [hqueue]

theorem progress_visit (hc : c.Sweeping) {t : StampedTree N} {p : Path N} {level : Nat}
    {todo : List (Path N × Nat)} {operands : List (Path N)} {e : Entry Time Time}
    {names : List N} {gone : Set (Path N)}
    (h : Progress c now t₀ ⟨t, (p, level) :: todo, operands⟩ gone)
    (hp : t.entry p = some e) (hnames : c.Listing now t level p e names) :
    Progress c now t₀ ⟨t, names.map (fun n => (p ++ [n], level + 1)) ++ todo,
      operands ++ if c.queues now level p e then [p] else []⟩ gone := by
  obtain ⟨s, hs, hlevel, hreach⟩ := h.reached (p, level) List.mem_cons_self
  simp only at hlevel
  have hrest := List.pairwise_cons.mp h.apart
  have huntouched := h.untouched (p, level) List.mem_cons_self
  have he : t₀.entry p = some e := (h.entry_eq List.mem_cons_self) ▸ hp
  constructor
  · exact h.swept
  · intro q hq
    rw [mem_operands_visit] at hq
    rcases hq with (hq | ⟨rfl, hqueue⟩) | hq
    · exact h.selected q (Or.inl hq)
    · exact ⟨s, hs, hreach, e, he, hlevel ▸ hqueue⟩
    · exact h.selected q (Or.inr hq)
  · intro x hx
    rcases List.mem_append.mp hx with hx | hx
    · rcases List.mem_map.mp hx with ⟨n, hn, rfl⟩
      have hdesc := hnames.descends_of_mem hn
      refine ⟨s, hs, ?_, reached_child hreach he (hlevel ▸ hdesc) n⟩
      have hlen := hreach.1.length_le
      simp only [List.length_append, List.length_singleton] at hlen ⊢
      omega
    · exact h.reached x (List.mem_cons_of_mem _ hx)
  · rw [List.pairwise_append]
    refine ⟨?_, hrest.2, ?_⟩
    · rw [List.pairwise_map]
      exact hnames.nodup.imp fun hne => apart_children p hne
    · intro x hx y hy
      rcases List.mem_map.mp hx with ⟨n, _, rfl⟩
      exact (hrest.1 y hy).child n
  · intro x hx q hq
    rw [mem_operands_visit] at hq
    rcases List.mem_append.mp hx with hx | hx
    · obtain ⟨n, hn, rfl⟩ := List.mem_map.mp hx
      rcases hq with (hq | ⟨rfl, hqueue⟩) | hq
      · exact (huntouched q (Or.inl hq)).child n
      · -- what is queued is not entered, so no name was read from it
        have hdesc := hnames.descends_of_mem hn
        rw [hc.queued_not_entered now level q e hqueue] at hdesc
        cases hdesc
      · exact (huntouched q (Or.inr hq)).child n
    · rcases hq with (hq | ⟨heq, _⟩) | hq
      · exact h.untouched x (List.mem_cons_of_mem _ hx) q (Or.inl hq)
      · exact heq ▸ (hrest.1 x hx).symm
      · exact h.untouched x (List.mem_cons_of_mem _ hx) q (Or.inr hq)
  · intro q hq
    rw [mem_operands_visit]
    rcases h.covered q hq with (hdone | hdone) | ⟨x, hx, hle⟩
    · exact Or.inl (Or.inl (Or.inl hdone))
    · exact Or.inl (Or.inr hdone)
    · rcases List.mem_cons.mp hx with rfl | hx
      · rcases covered_visit hc hs hlevel hreach.1 he hq hle with hself | ⟨hdesc, n, hn, hnle⟩
        · exact Or.inl (Or.inl (Or.inr hself))
        · -- the name is still in the directory, which no removal has touched
          have hread : n ∈ names := by
            rw [hnames.mem_iff hdesc]
            exact (h.swept.childNames_eq_of_apart
              (fun g hg => huntouched g (Or.inr hg)) n).mpr hn
          refine Or.inr ⟨(p ++ [n], level + 1), ?_, hnle⟩
          exact List.mem_append_left _ (List.mem_map.mpr ⟨n, hread, rfl⟩)
      · exact Or.inr ⟨x, List.mem_append_right _ hx, hle⟩

theorem progress_step (hc : c.Sweeping) {state state' : FindState N} {gone : Set (Path N)}
    (h : Progress c now t₀ state gone) (hstep : FindStep c now state state') :
    ∃ gone', Progress c now t₀ state' gone' := by
  cases hstep with
  | missing hp => exact ⟨gone, progress_missing h hp⟩
  | visit hp hnames => exact ⟨gone, progress_visit hc h hp hnames⟩
  | remove hclock => exact ⟨_, progress_remove hc h hclock⟩

theorem progress_steps (hc : c.Sweeping) {state : FindState N}
    (hsteps : Relation.ReflTransGen (FindStep c now) (c.start t₀) state) :
    ∃ gone, Progress c now t₀ state gone := by
  induction hsteps with
  | refl => exact ⟨∅, progress_start hc⟩
  | tail _ hstep ih =>
    rcases ih with ⟨gone, h⟩
    exact progress_step hc h hstep

/-- **A complete run removes exactly what its command selects on the initial
    tree**, however directories list and however the operands are batched. -/
theorem findRun_swept (hc : c.Sweeping) {t t' : StampedTree N} (h : FindRun c now t t') :
    Swept now t t' {p | Selected c now t p} := by
  rcases progress_steps hc h with ⟨gone, hdone⟩
  have hgone : gone = {p | Selected c now t p} := by
    ext p
    constructor
    · intro hp
      exact hdone.selected p (Or.inr hp)
    · intro hp
      rcases hdone.covered p hp with (hq | hq) | ⟨x, hx, _⟩
      · exact absurd hq List.not_mem_nil
      · exact hq
      · exact absurd hx List.not_mem_nil
  exact hgone ▸ hdone.swept

end FindUtility
