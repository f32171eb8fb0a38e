import DevenvTemplate.StampedTree
import Mathlib.Logic.Relation

/-!
# The `find` utility

`FindExpr` is the part of GNU find's expression language that a pruning cleanup
needs: literal `-name`, `-type d`, `-mtime +n`, `-prune`, `-exec rm -rf {} +`,
juxtaposition and `-o`.  Evaluation is the left-to-right short-circuit evaluation
of the manual, threading the side effects an expression has on one visit.

`FindStep` is one step of a running `find`: the traversal visits the next
pathname it has read, or the collected command line runs and removes its next
operand.  The two interleave freely, directories list in any order, and every
removal happens at some time at or after the start of the command.  Every way of
cutting the operands into batches is therefore one of these runs.
-/

namespace FindUtility

open FileTrees

variable {N : Type}

/-! ### Expressions -/

inductive FindExpr (N : Type) where
  | name (literal : N)            -- `-name`, with no wildcard in the pattern
  | typeDir                       -- `-type d`
  | mtimeOver (days : Nat)        -- `-mtime +days`
  | prune                         -- `-prune`
  | execRm                        -- `-exec rm -rf {} +`
  | and (left right : FindExpr N)
  | or (left right : FindExpr N)
deriving DecidableEq, Repr

/-- What an expression has asked for on one visit: not to descend, and to append
    the pathname to the `rm -rf` command line. -/
structure Effect where
  pruned : Bool := false
  queued : Bool := false
deriving DecidableEq, Repr

/-- Evaluate an expression on an entry whose pathname ends in `base` (`.` has no
    base name).  `now` is the start time of the command. -/
def FindExpr.eval [DecidableEq N] (now : Time) (base : Option N) (e : Entry Time Time) :
    FindExpr N → Effect → Bool × Effect
  | .name literal, fx => (decide (base = some literal), fx)
  | .typeDir, fx => (e.isDir, fx)
  | .mtimeOver days, fx => (decide ((days : Int) < ageDays now e.mtime), fx)
  | .prune, fx => (true, { fx with pruned := true })
  | .execRm, fx => (true, { fx with queued := true })
  | .and left right, fx =>
      match left.eval now base e fx with
      | (true, fx') => right.eval now base e fx'
      | (false, fx') => (false, fx')
  | .or left right, fx =>
      match left.eval now base e fx with
      | (true, fx') => (true, fx')
      | (false, fx') => right.eval now base e fx'

section Eval

variable [DecidableEq N] (now : Time) (base : Option N) (e : Entry Time Time) (fx : Effect)

@[simp] theorem eval_name (literal : N) :
    (FindExpr.name literal).eval now base e fx = (decide (base = some literal), fx) := rfl

@[simp] theorem eval_typeDir :
    (FindExpr.typeDir : FindExpr N).eval now base e fx = (e.isDir, fx) := rfl

@[simp] theorem eval_mtimeOver (days : Nat) :
    (FindExpr.mtimeOver days : FindExpr N).eval now base e fx =
      (decide ((days : Int) < ageDays now e.mtime), fx) := rfl

@[simp] theorem eval_prune :
    (FindExpr.prune : FindExpr N).eval now base e fx = (true, { fx with pruned := true }) := rfl

@[simp] theorem eval_execRm :
    (FindExpr.execRm : FindExpr N).eval now base e fx = (true, { fx with queued := true }) := rfl

@[simp] theorem eval_and (left right : FindExpr N) :
    (FindExpr.and left right).eval now base e fx =
      if (left.eval now base e fx).1 then right.eval now base e (left.eval now base e fx).2
      else (false, (left.eval now base e fx).2) := by
  rw [FindExpr.eval]
  rcases left.eval now base e fx with ⟨value, fx'⟩
  cases value <;> rfl

@[simp] theorem eval_or (left right : FindExpr N) :
    (FindExpr.or left right).eval now base e fx =
      if (left.eval now base e fx).1 then (true, (left.eval now base e fx).2)
      else right.eval now base e (left.eval now base e fx).2 := by
  rw [FindExpr.eval]
  rcases left.eval now base e fx with ⟨value, fx'⟩
  cases value <;> rfl

end Eval

structure FindCommand (N : Type) where
  startingPoints : List (Path N)
  mindepth : Nat := 0
  maxdepth : Nat
  expression : FindExpr N

namespace FindCommand

variable [DecidableEq N] (c : FindCommand N) (now : Time)

/-- The effect of visiting an entry; above `-mindepth` no test is applied. -/
def effect (level : Nat) (p : Path N) (e : Entry Time Time) : Effect :=
  if level < c.mindepth then {} else (c.expression.eval now p.getLast? e {}).2

def queues (level : Nat) (p : Path N) (e : Entry Time Time) : Bool :=
  (c.effect now level p e).queued

def descends (level : Nat) (p : Path N) (e : Entry Time Time) : Bool :=
  e.isDir && decide (level < c.maxdepth) && !(c.effect now level p e).pruned

/-- The names read from a visited entry: all names of a directory that is entered,
    in the order the directory returns them, and none otherwise. -/
def Listing (t : StampedTree N) (level : Nat) (p : Path N) (e : Entry Time Time)
    (names : List N) : Prop :=
  if c.descends now level p e then
    names.Nodup ∧ ∀ n, n ∈ names ↔ n ∈ t.childNames p
  else names = []

section Listing

variable {c now} {t : StampedTree N} {level : Nat} {p : Path N} {e : Entry Time Time}
  {names : List N}

theorem Listing.nodup (h : c.Listing now t level p e names) : names.Nodup := by
  unfold Listing at h
  split at h
  · exact h.1
  · rw [h]
    exact List.nodup_nil

theorem Listing.descends_of_mem (h : c.Listing now t level p e names) {n : N} (hn : n ∈ names) :
    c.descends now level p e = true := by
  by_contra hdesc
  rw [Listing, if_neg hdesc] at h
  rw [h] at hn
  cases hn

theorem Listing.mem_iff (h : c.Listing now t level p e names)
    (hdesc : c.descends now level p e = true) (n : N) : n ∈ names ↔ n ∈ t.childNames p := by
  rw [Listing, if_pos hdesc] at h
  exact h.2 n

end Listing

end FindCommand

/-! ### Runs -/

/-- A running `find`: the tree as it is, the pathnames read but not visited yet
    with their level, and the operands waiting for `rm -rf`. -/
structure FindState (N : Type) where
  tree : StampedTree N
  todo : List (Path N × Nat)
  operands : List (Path N)

variable [DecidableEq N]

inductive FindStep (c : FindCommand N) (now : Time) : FindState N → FindState N → Prop where
  /-- A pathname that does not exist is reported on standard error and skipped. -/
  | missing {t p level todo operands} (h : t.entry p = none) :
      FindStep c now ⟨t, (p, level) :: todo, operands⟩ ⟨t, todo, operands⟩
  | visit {t p level todo operands e names} (h : t.entry p = some e)
      (hnames : c.Listing now t level p e names) :
      FindStep c now ⟨t, (p, level) :: todo, operands⟩
        ⟨t, names.map (fun n => (p ++ [n], level + 1)) ++ todo,
          operands ++ if c.queues now level p e then [p] else []⟩
  | remove {t todo p operands clock} (h : now ≤ clock) :
      FindStep c now ⟨t, todo, p :: operands⟩ ⟨t.removeTree clock p, todo, operands⟩

def FindCommand.start (c : FindCommand N) (t : StampedTree N) : FindState N :=
  ⟨t, c.startingPoints.map (fun p => (p, 0)), []⟩

/-- A complete run: everything read has been visited and every operand removed. -/
def FindRun (c : FindCommand N) (now : Time) (t t' : StampedTree N) : Prop :=
  Relation.ReflTransGen (FindStep c now) (c.start t) ⟨t', [], []⟩

/-! ### What a command selects, read off the tree it starts on -/

/-- The traversal from starting point `s` gets to `p`: it descends through
    everything on the way. -/
def Reached (c : FindCommand N) (now : Time) (t : StampedTree N) (s p : Path N) : Prop :=
  s <+: p ∧ ∀ q e, s <+: q → q <+: p → q ≠ p → t.entry q = some e →
    c.descends now (q.length - s.length) q e = true

def Selected (c : FindCommand N) (now : Time) (t : StampedTree N) (p : Path N) : Prop :=
  ∃ s ∈ c.startingPoints, Reached c now t s p ∧
    ∃ e, t.entry p = some e ∧ c.queues now (p.length - s.length) p e = true

/-- Commands that start at places apart from each other, do not enter what they
    hand to `rm -rf`, and do not hand it the working directory. -/
structure FindCommand.Sweeping (c : FindCommand N) : Prop where
  apart : c.startingPoints.Pairwise Apart
  queued_not_entered : ∀ now level p e,
    c.queues now level p e = true → c.descends now level p e = false
  root_not_queued : ∀ now e, c.queues now 0 [] e = false

theorem reached_self (c : FindCommand N) (now : Time) (t : StampedTree N) (s : Path N) :
    Reached c now t s s :=
  ⟨List.prefix_rfl, fun _ _ hs hq hne => absurd (prefix_antisymm hq hs) hne⟩

theorem reached_child {c : FindCommand N} {now : Time} {t : StampedTree N} {s p : Path N}
    {e : Entry Time Time} (h : Reached c now t s p) (he : t.entry p = some e)
    (hdesc : c.descends now (p.length - s.length) p e = true) (n : N) :
    Reached c now t s (p ++ [n]) := by
  refine ⟨h.1.trans (List.prefix_append p [n]), ?_⟩
  intro q e' hs hq hne hq'
  rcases List.prefix_concat_iff.mp hq with heq | hqp
  · exact absurd heq hne
  · by_cases hqeq : q = p
    · subst hqeq
      rw [he] at hq'
      exact Option.some.inj hq' ▸ hdesc
    · exact h.2 q e' hs hqp hqeq hq'

/-- Starting points that lie above one pathname are the same. -/
theorem FindCommand.Sweeping.start_unique {c : FindCommand N} (hc : c.Sweeping)
    {s s' p : Path N} (hs : s ∈ c.startingPoints) (hs' : s' ∈ c.startingPoints)
    (hp : s <+: p) (hp' : s' <+: p) : s = s' := by
  by_contra hne
  have hapart := hc.apart.forall hs hs' hne
  rcases prefix_or_prefix hp hp' with h | h
  · exact hapart.1 h
  · exact hapart.2 h

end FindUtility
