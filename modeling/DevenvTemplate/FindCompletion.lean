import DevenvTemplate.FindCommand
import Mathlib.Algebra.BigOperators.Group.Finset.Basic
import Mathlib.Algebra.Order.BigOperators.Group.List
import Mathlib.Data.Prod.Lex
import Mathlib.Algebra.Order.Monoid.Canonical.Defs
import Mathlib.Algebra.Order.Ring.Nat

/-!
# Every run of `find` completes

No schedule keeps a run going for ever, and only a completed run is stuck.  Each
visit trades an entry for entries strictly below it and every other step shortens
a list, so the total size of the subtrees still to be visited, with the length of
both lists to break ties, goes down in every step.
-/

namespace FindUtility

open FileTrees

variable {N : Type} [DecidableEq N]

theorem isSome_of_removeTree (t : StampedTree N) (clock : Time) (p q : Path N)
    (h : ((t.removeTree clock p).entry q).isSome) : (t.entry q).isSome := by
  by_cases hp : p = []
  · simpa [FileTree.removeTree, hp] using h
  · rw [FileTree.entry_removeTree _ _ _ _ hp] at h
    split at h
    · simp at h
    · split at h
      · simpa using h
      · exact h

theorem subtree_removeTree_card_le (t : StampedTree N) (clock : Time) (p q : Path N) :
    ((t.removeTree clock p).subtree q).card ≤ (t.subtree q).card := by
  apply Finset.card_le_card
  intro r hr
  rw [FileTree.mem_subtree] at hr ⊢
  exact ⟨isSome_of_removeTree t clock p r hr.1, hr.2⟩

/-- The subtrees of distinct children fit beside their directory. -/
theorem sum_children_card_lt (t : StampedTree N) (p : Path N) (names : List N)
    (hp : (t.entry p).isSome) (hnodup : names.Nodup) :
    (names.map fun n => (t.subtree (p ++ [n])).card).sum < (t.subtree p).card := by
  rw [← List.sum_toFinset _ hnodup, ← Finset.card_biUnion]
  · apply Finset.card_lt_card
    rw [Finset.ssubset_iff_of_subset]
    · refine ⟨p, (t.mem_subtree p p).mpr ⟨hp, List.prefix_rfl⟩, ?_⟩
      intro hmem
      rcases Finset.mem_biUnion.mp hmem with ⟨n, _, hn⟩
      exact not_child_prefix_self p n ((t.mem_subtree _ p).mp hn).2
    · intro q hq
      rcases Finset.mem_biUnion.mp hq with ⟨n, _, hn⟩
      obtain ⟨hsome, hle⟩ := (t.mem_subtree _ q).mp hn
      exact (t.mem_subtree p q).mpr ⟨hsome, (List.prefix_append p [n]).trans hle⟩
  · intro m _ n _ hne
    apply Finset.disjoint_left.mpr
    intro q hm hn
    have hapart := apart_children p hne
    rcases prefix_or_prefix ((t.mem_subtree _ q).mp hm).2 ((t.mem_subtree _ q).mp hn).2 with h | h
    · exact hapart.1 h
    · exact hapart.2 h

/-- What is left to do: the entries below the pathnames to visit, then the
    lengths of the two lists. -/
def FindState.remaining (state : FindState N) : Nat ×ₗ Nat :=
  toLex ((state.todo.map fun x => (state.tree.subtree x.1).card).sum,
    state.todo.length + state.operands.length)

variable {c : FindCommand N} {now : Time}

theorem remaining_lt_of_step {state state' : FindState N} (h : FindStep c now state state') :
    state'.remaining < state.remaining := by
  cases h with
  | missing hp =>
    rw [FindState.remaining, FindState.remaining, Prod.Lex.toLex_lt_toLex]
    simp only [List.map_cons, List.sum_cons, List.length_cons]
    omega
  | @visit t p level todo operands e names hp hnames =>
    apply Prod.Lex.toLex_lt_toLex.mpr
    left
    simp only [List.map_append, List.map_map, List.sum_append, List.map_cons, List.sum_cons]
    have hlt := sum_children_card_lt t p names (by simp [hp]) hnames.nodup
    exact Nat.add_lt_add_right hlt _
  | @remove t todo p operands clock _ =>
    rw [FindState.remaining, FindState.remaining, Prod.Lex.toLex_lt_toLex]
    have hle : (todo.map fun x => ((t.removeTree clock p).subtree x.1).card).sum ≤
        (todo.map fun x => (t.subtree x.1).card).sum :=
      List.sum_le_sum fun x _ => subtree_removeTree_card_le t clock p x.1
    simp only [List.length_cons]
    omega

/-- **No run goes on for ever.** -/
theorem findStep_wellFounded (c : FindCommand N) (now : Time) :
    WellFounded fun state' state => FindStep c now state state' :=
  Subrelation.wf remaining_lt_of_step (InvImage.wf FindState.remaining wellFounded_lt)

/-- A run is stuck only when everything has been visited and removed. -/
theorem findStep_progress (c : FindCommand N) (now : Time) (state : FindState N) :
    (state.todo = [] ∧ state.operands = []) ∨ ∃ state', FindStep c now state state' := by
  rcases state with ⟨t, todo, operands⟩
  cases todo with
  | nil =>
    cases operands with
    | nil => exact Or.inl ⟨rfl, rfl⟩
    | cons p operands => exact Or.inr ⟨_, FindStep.remove (le_refl now)⟩
  | cons x todo =>
    rcases x with ⟨p, level⟩
    right
    cases hp : t.entry p with
    | none => exact ⟨_, FindStep.missing hp⟩
    | some e =>
      have hlisting : ∃ names, c.Listing now t level p e names := by
        by_cases hdesc : c.descends now level p e = true
        · refine ⟨(t.childNames p).toList, ?_⟩
          rw [FindCommand.Listing, if_pos hdesc]
          exact ⟨Finset.nodup_toList _, fun n => Finset.mem_toList⟩
        · exact ⟨[], by rw [FindCommand.Listing, if_neg hdesc]⟩
      obtain ⟨names, hnames⟩ := hlisting
      exact ⟨_, FindStep.visit hp hnames⟩

theorem exists_completion (c : FindCommand N) (now : Time) (state : FindState N) :
    ∃ t', Relation.ReflTransGen (FindStep c now) state ⟨t', [], []⟩ := by
  induction state using (findStep_wellFounded c now).induction with
  | _ state ih =>
    rcases findStep_progress c now state with ⟨htodo, hoperands⟩ | ⟨state', hstep⟩
    · rcases state with ⟨t, todo, operands⟩
      simp only at htodo hoperands
      subst htodo hoperands
      exact ⟨t, Relation.ReflTransGen.refl⟩
    · rcases ih state' hstep with ⟨t', hrun⟩
      exact ⟨t', Relation.ReflTransGen.head hstep hrun⟩

theorem exists_findRun (c : FindCommand N) (now : Time) (t : StampedTree N) :
    ∃ t', FindRun c now t t' :=
  exists_completion c now (c.start t)

end FindUtility
