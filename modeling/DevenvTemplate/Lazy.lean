import DevenvTemplate.RacyInit
import DevenvTemplate.SysFill
import Mathlib.Data.BitVec

/-!
# Values that are found out once

`lazy.rs`, and the variables that the backends for Linux and Android with a fallback and for
NetBSD keep a pointer in.  All of them are initialised without a lock.
-/

namespace DevenvTemplate.Lazy

open AtomicCell LabelledRuns RacyInit Getrandom UtilLibc

variable {w : Nat}

/-! ### `lazy.rs` -/

/-- `LazyUsize::UNINIT`, which is `usize::MAX`. -/
def uninit (w : Nat) : BitVec w := BitVec.allOnes w

/-- `LazyUsize`, with `unsync_init`: it stores whatever `init` returns. -/
def lazyUsize (w : Nat) : RacyInit.Lazy (BitVec w) (BitVec w) (BitVec w) where
  empty := uninit w
  loadOrder := .relaxed
  storeOrder := .relaxed
  hit val := val
  publish val := some val
  result val := val

/-- `usize::from` -/
def usizeFrom (w : Nat) (b : Bool) : BitVec w := if b then 1#w else 0#w

/-- `LazyBool` -/
def lazyBool (w : Nat) : RacyInit.Lazy (BitVec w) Bool Bool :=
  (lazyUsize w).comap (usizeFrom w) fun val => val != 0#w

/-- A boolean comes back as it was. -/
theorem usizeFrom_ne_zero (hw : 1 < w) (b : Bool) : (usizeFrom w b != 0#w) = b := by
  cases b with
  | false => simp [usizeFrom]
  | true =>
    have hne : 1#w ≠ 0#w := by
      intro heq
      have hval := congrArg BitVec.toNat heq
      rw [BitVec.toNat_ofNat, BitVec.toNat_ofNat, Nat.mod_eq_of_lt (Nat.one_lt_two_pow (by omega))]
        at hval
      simp at hval
    simpa [usizeFrom] using hne

/-- No boolean looks like a variable that is not initialised. -/
theorem usizeFrom_ne_uninit (hw : 1 < w) (b : Bool) : usizeFrom w b ≠ uninit w := by
  have hpow : 2 ^ 2 ≤ 2 ^ w := Nat.pow_le_pow_right (by decide) hw
  intro heq
  have hval := congrArg BitVec.toNat heq
  rw [uninit, BitVec.toNat_allOnes] at hval
  cases b with
  | false =>
    simp [usizeFrom] at hval
    omega
  | true =>
    rw [usizeFrom, if_pos rfl, BitVec.toNat_ofNat, Nat.mod_eq_of_lt (Nat.one_lt_two_pow (by omega))]
      at hval
    omega

section Runs

variable {Thread : Type} [DecidableEq Thread]

/-- **`LazyUsize` returns what `init` returned.**  Whoever else initialises at the same time,
    a call returns the value of a run of `init`, and returns `UNINIT` only from its own. -/
theorem lazyUsize_sound {s₀ s : State Thread (BitVec w) (BitVec w) (BitVec w)}
    {labels : List (Label Thread (BitVec w) (BitVec w))} (hs : Initial (lazyUsize w) s₀)
    (hrun : Run (Step (lazyUsize w)) s₀ labels s) {t : Thread} {val : BitVec w}
    (hpc : (s.caller t).pc = .done val) :
    Ran labels val ∧ (val = uninit w → (t, .initialised val) ∈ labels) := by
  rcases (sound_run hs hrun).done t val hpc with ⟨o, hmem, hval, _⟩ | ⟨o, v, hran, hv, hne, hval, _⟩
  · have hsame : val = o := hval
    rw [hsame]
    exact ⟨⟨t, hmem⟩, fun _ => hmem⟩
  · have hsame : val = v := hval
    have hpublish : o = v := Option.some.inj hv
    rw [hsame]
    exact ⟨hpublish ▸ hran, fun heq => absurd heq hne⟩

/-- Nobody has called yet. -/
def fresh {V O R : Type} (lazy : RacyInit.Lazy V O R) : State Unit V O R where
  cell := Cell.new lazy.empty
  caller _ := ⟨.ready, ⟨0, ∅⟩⟩

theorem fresh_initial {V O R : Type} (lazy : RacyInit.Lazy V O R) : Initial lazy (fresh lazy) :=
  ⟨rfl, fun _ => rfl⟩

theorem fresh_lazyUsize_sound :
    ∃ labels : List (Label Unit (BitVec 64) (BitVec 64)), Ran labels (uninit 64) := by
  rcases exists_alone (fresh_initial (lazyUsize 64)) () (o := uninit 64) rfl with
    ⟨labels, s, hrun, hpc, _⟩
  exact ⟨labels, (lazyUsize_sound (fresh_initial _) hrun hpc).1⟩

/-- **`LazyBool` is what `init` returned, and each thread finds it out at most once.** -/
theorem lazyBool_sound (hw : 1 < w) {s₀ s : State Thread (BitVec w) Bool Bool}
    {labels : List (Label Thread (BitVec w) Bool)} (hs : Initial (lazyBool w) s₀)
    (hrun : Run (Step (lazyBool w)) s₀ labels s) (t : Thread) :
    (∀ b, (s.caller t).pc = .done b → Ran labels b) ∧
      labels.countP (publishes (lazyBool w) t) ≤ 1 := by
  refine ⟨?_, published_once ?_ hs hrun t⟩
  · intro b hpc
    rcases (sound_run hs hrun).done t b hpc with ⟨o, hmem, hb, _⟩ | ⟨o, v, hran, hv, _, hb, _⟩
    · have hsame : b = o := hb.trans (usizeFrom_ne_zero hw o)
      exact hsame ▸ ⟨t, hmem⟩
    · have hpublish : usizeFrom w o = v := Option.some.inj hv
      have hsame : b = o := by
        rw [← usizeFrom_ne_zero hw o, hpublish]
        exact hb
      exact hsame ▸ hran
  · intro o heq
    exact usizeFrom_ne_uninit hw o (Option.some.inj heq)

theorem fresh_lazyBool_sound : ∃ labels : List (Label Unit (BitVec 64) Bool),
    Ran labels true ∧ labels.countP (publishes (lazyBool 64) ()) ≤ 1 := by
  rcases exists_alone (fresh_initial (lazyBool 64)) () (o := true) rfl with
    ⟨labels, s, hrun, hpc, _⟩
  obtain ⟨hran, hcount⟩ := lazyBool_sound (by decide) (fresh_initial _) hrun ()
  exact ⟨labels, hran true hpc, hcount⟩

end Runs

/-! ### Which `getrandom` to call -/

def enosys : I32 := ⟨38, by decide⟩
def eperm : I32 := ⟨1, by decide⟩

/-- What `init` finds: the pointer from `dlsym`, which is null if there is none, and what the
    function returns when it is called for no bytes. -/
structure Probe (w : Nat) where
  rawPtr : BitVec w
  res : Int
  errno : I32

/-- What the build is for: Linux or Android, and tests of the fallback. -/
structure Target where
  linux : Bool
  testFallback : Bool

/-- `NOT_AVAILABLE`, which is `usize::MAX`. -/
def notAvailable (w : Nat) : BitVec w := BitVec.allOnes w

/-- `init` in `linux_android_with_fallback.rs`. -/
def initGetrandomFn (target : Target) (p : Probe w) : BitVec w :=
  if p.rawPtr = 0#w then notAvailable w
  else if target.testFallback then notAvailable w
  else if p.res < 0 then
    let err := (lastOsError p.errno).rawOsError
    if err = some enosys then notAvailable w
    else if target.linux = true ∧ err = some eperm then notAvailable w
    else p.rawPtr
  else p.rawPtr

/-- A pointer that is null until a call has stored what its `init` returned, with the
    beginning of `fill_inner`. -/
def atomicPtr {O : Type} (init : O → BitVec w) : RacyInit.Lazy (BitVec w) O (BitVec w) where
  empty := 0#w
  loadOrder := .acquire
  storeOrder := .release
  hit rawPtr := rawPtr
  publish o := some (init o)
  result o := init o

/-- `GETRANDOM_FN` -/
def getrandomFn (w : Nat) (target : Target) : RacyInit.Lazy (BitVec w) (Probe w) (BitVec w) :=
  atomicPtr (initGetrandomFn target)

/-- `init` in `netbsd.rs`, with the address of the polyfill. -/
def initGetrandom (polyfill : BitVec w) (testFallback : Bool) (rawPtr : BitVec w) : BitVec w :=
  if rawPtr = 0#w ∨ testFallback = true then polyfill else rawPtr

/-- `GETRANDOM` of `netbsd.rs`. -/
def getrandom (polyfill : BitVec w) (testFallback : Bool) :
    RacyInit.Lazy (BitVec w) (BitVec w) (BitVec w) :=
  atomicPtr (initGetrandom polyfill testFallback)

/-- What the probe must have found for the fallback. -/
def Probe.Unavailable (target : Target) (p : Probe w) : Prop :=
  p.rawPtr = 0#w ∨ target.testFallback = true ∨
    (p.res < 0 ∧ (p.errno = enosys ∨ (target.linux = true ∧ p.errno = eperm)))

theorem rawOsError_lastOsError_eq_some {errno e : I32} (he : 0 < e.val) :
    (lastOsError errno).rawOsError = some e ↔ errno = e := by
  by_cases herrno : 0 < errno.val
  · rw [rawOsError_lastOsError errno herrno, Option.some.injEq]
  · rw [rawOsError_lastOsError_of_not_pos errno herrno]
    constructor
    · intro heq
      simp at heq
    · intro heq
      rw [heq] at herrno
      exact absurd he herrno

theorem initGetrandomFn_cases (target : Target) (p : Probe w) :
    (p.Unavailable target ∧ initGetrandomFn target p = notAvailable w) ∨
      (¬ p.Unavailable target ∧ p.rawPtr ≠ 0#w ∧ initGetrandomFn target p = p.rawPtr) := by
  have henosys : (lastOsError p.errno).rawOsError = some enosys ↔ p.errno = enosys :=
    rawOsError_lastOsError_eq_some (by decide)
  have heperm : (lastOsError p.errno).rawOsError = some eperm ↔ p.errno = eperm :=
    rawOsError_lastOsError_eq_some (by decide)
  simp only [initGetrandomFn, Probe.Unavailable, henosys, heperm]
  by_cases hnull : p.rawPtr = 0#w
  · simp [hnull]
  · by_cases htest : target.testFallback = true
    · simp [hnull, htest]
    · by_cases hres : p.res < 0
      · by_cases hsys : p.errno = enosys
        · simp [hnull, htest, hres, hsys]
        · by_cases hperm : target.linux = true ∧ p.errno = eperm
          · simp [hnull, htest, hres, hperm]
          · simp [hnull, htest, hres, hsys, hperm]
      · simp [hnull, htest, hres]

theorem notAvailable_ne_null (hw : 0 < w) : notAvailable w ≠ 0#w := by
  have hpow : 2 ^ 1 ≤ 2 ^ w := Nat.pow_le_pow_right (by decide) hw
  intro heq
  have hval := congrArg BitVec.toNat heq
  rw [notAvailable, BitVec.toNat_allOnes] at hval
  simp at hval
  omega

theorem initGetrandomFn_ne_null (hw : 0 < w) (target : Target) (p : Probe w) :
    initGetrandomFn target p ≠ 0#w := by
  rcases initGetrandomFn_cases target p with ⟨_, heq⟩ | ⟨_, hne, heq⟩
  · rw [heq]
    exact notAvailable_ne_null hw
  · rw [heq]
    exact hne

section Runs

variable {Thread : Type} [DecidableEq Thread]

/-- A call goes on with a pointer that came out of an `init` which happened before. -/
theorem atomicPtr_sound {O : Type} {init : O → BitVec w} (hinit : ∀ o, init o ≠ 0#w)
    {s₀ s : State Thread (BitVec w) O (BitVec w)} {labels : List (Label Thread (BitVec w) O)}
    (hs : Initial (atomicPtr init) s₀) (hrun : Run (Step (atomicPtr init)) s₀ labels s)
    (t : Thread) :
    (∀ fptr, (s.caller t).pc = .done fptr →
      ∃ o, Ran labels o ∧ o ∈ (s.caller t).view.knows ∧ fptr = init o) ∧
      labels.countP (publishes (atomicPtr init) t) ≤ 1 := by
  refine ⟨?_, published_once ?_ hs hrun t⟩
  · intro fptr hpc
    rcases (sound_run hs hrun).done t fptr hpc with
      ⟨o, hmem, hfptr, hknows⟩ | ⟨o, v, hran, hv, _, hfptr, hknows⟩
    · exact ⟨o, ⟨t, hmem⟩, hknows, hfptr⟩
    · exact ⟨o, hran, hknows rfl rfl, hfptr.trans (Option.some.inj hv).symm⟩
  · intro o heq
    exact hinit o (Option.some.inj heq)

/-- The same for NetBSD, where the fallback is a function of the crate. -/
theorem getrandom_sound {polyfill : BitVec w} (hpolyfill : polyfill ≠ 0#w) {testFallback : Bool}
    {s₀ s : State Thread (BitVec w) (BitVec w) (BitVec w)}
    {labels : List (Label Thread (BitVec w) (BitVec w))}
    (hs : Initial (getrandom polyfill testFallback) s₀)
    (hrun : Run (Step (getrandom polyfill testFallback)) s₀ labels s) (t : Thread) :
    (∀ fptr, (s.caller t).pc = .done fptr → ∃ rawPtr, Ran labels rawPtr ∧
      rawPtr ∈ (s.caller t).view.knows ∧
      ((fptr = polyfill ∧ (rawPtr = 0#w ∨ testFallback = true)) ∨
        (fptr = rawPtr ∧ fptr ≠ 0#w))) ∧
      labels.countP (publishes (getrandom polyfill testFallback) t) ≤ 1 := by
  have hinit : ∀ rawPtr, initGetrandom polyfill testFallback rawPtr ≠ 0#w := by
    intro rawPtr
    unfold initGetrandom
    split
    · exact hpolyfill
    · rename_i hnot
      exact fun heq => hnot (Or.inl heq)
  obtain ⟨hdone, hcount⟩ := atomicPtr_sound hinit hs hrun t
  refine ⟨?_, hcount⟩
  intro fptr hpc
  rcases hdone fptr hpc with ⟨rawPtr, hran, hknows, hfptr⟩
  refine ⟨rawPtr, hran, hknows, ?_⟩
  unfold initGetrandom at hfptr
  split at hfptr
  · rename_i hfallback
    exact Or.inl ⟨hfptr, hfallback⟩
  · rename_i hnot
    refine Or.inr ⟨hfptr, ?_⟩
    rw [hfptr]
    exact fun heq => hnot (Or.inl heq)

end Runs

end DevenvTemplate.Lazy
