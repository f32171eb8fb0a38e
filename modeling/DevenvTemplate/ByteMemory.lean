import Mathlib.Data.List.Nodup
import Mathlib.Logic.Function.Basic
import Mathlib.Algebra.Order.Monoid.Canonical.Defs
import Mathlib.Algebra.Order.Ring.Nat

/-!
# Byte memory and words

A memory of bytes that may be uninitialised, with a log of the addresses written,
and the bytes of 64-bit words.  A stream of words can be cut into bytes, a given
number of them from each word; `cutPositions` says which byte of which word each
one is, so that nothing is used twice.
-/

namespace ByteMemory

/-! ### Memory -/

/-- What the contract of an access excludes. -/
inductive Fault where
  | readPastSource
  | misaligned
  | uninitialised
deriving DecidableEq, Repr

/-- A slice of `len` elements. -/
structure Slice where
  addr : Nat
  len : Nat
deriving DecidableEq, Repr

structure Memory where
  cells : Nat → Option UInt8
  writes : List Nat

namespace Memory

def store (m : Memory) (addr : Nat) (b : UInt8) : Memory where
  cells := Function.update m.cells addr (some b)
  writes := m.writes ++ [addr]

def storeBytes (m : Memory) (addr : Nat) : List UInt8 → Memory
  | [] => m
  | b :: bs => (m.store addr b).storeBytes (addr + 1) bs

def load (m : Memory) (addr len : Nat) : List (Option UInt8) :=
  (List.range len).map fun i => m.cells (addr + i)

theorem storeBytes_append (m : Memory) (addr : Nat) (bs cs : List UInt8) :
    m.storeBytes addr (bs ++ cs) = (m.storeBytes addr bs).storeBytes (addr + bs.length) cs := by
  induction bs generalizing m addr with
  | nil => rfl
  | cons b bs ih =>
    rw [List.cons_append, storeBytes, storeBytes, ih, List.length_cons]
    congr 1
    omega

theorem storeBytes_outside (m : Memory) (addr : Nat) (bs : List UInt8) (x : Nat)
    (hx : x < addr ∨ addr + bs.length ≤ x) : (m.storeBytes addr bs).cells x = m.cells x := by
  induction bs generalizing m addr with
  | nil => rfl
  | cons b bs ih =>
    rw [List.length_cons] at hx
    rw [storeBytes, ih _ _ (by omega)]
    have hne : x ≠ addr := by omega
    exact Function.update_of_ne hne _ _

theorem storeBytes_inside (m : Memory) (addr : Nat) (bs : List UInt8) {i : Nat}
    (hi : i < bs.length) : (m.storeBytes addr bs).cells (addr + i) = some bs[i] := by
  induction bs generalizing m addr i with
  | nil => cases hi
  | cons b bs ih =>
    rw [storeBytes]
    cases i with
    | zero =>
      rw [storeBytes_outside _ _ _ _ (by omega)]
      exact Function.update_self _ _ _
    | succ i =>
      have hrest := ih (m.store addr b) (addr + 1) (Nat.lt_of_succ_lt_succ hi)
      rw [Nat.add_right_comm] at hrest
      exact hrest

theorem load_storeBytes (m : Memory) (addr : Nat) (bs : List UInt8) :
    (m.storeBytes addr bs).load addr bs.length = bs.map some := by
  apply List.ext_getElem
  · simp [load]
  · intro i hi hi'
    rw [List.length_map] at hi'
    simp only [load, List.getElem_map, List.getElem_range]
    exact storeBytes_inside m addr bs hi'

theorem writes_storeBytes (m : Memory) (addr : Nat) (bs : List UInt8) :
    (m.storeBytes addr bs).writes = m.writes ++ (List.range bs.length).map (addr + ·) := by
  induction bs generalizing m addr with
  | nil => simp [storeBytes]
  | cons b bs ih =>
    rw [storeBytes, ih, store, List.length_cons, List.range_succ_eq_map, List.map_cons,
      List.map_map, List.append_assoc, List.singleton_append, Nat.add_zero]
    congr 2
    apply List.map_congr_left
    intro i _
    rw [Function.comp_apply]
    omega

end Memory

/-! ### Words -/

/-- The byte of a word at a position, the lowest one first. -/
def leByte (v : UInt64) (position : Nat) : UInt8 := UInt8.ofNat (v.toNat >>> (8 * position))

def leBytes (v : UInt64) : List UInt8 := (List.range 8).map (leByte v)

@[simp] theorem length_leBytes (v : UInt64) : (leBytes v).length = 8 := by
  simp [leBytes]

theorem take_leBytes (v : UInt64) {len : Nat} (hlen : len ≤ 8) :
    (leBytes v).take len = (List.range len).map (leByte v) := by
  rw [leBytes, ← List.map_take, List.take_range, Nat.min_eq_left hlen]

/-- Copy `len` bytes of a value of its own to an address. -/
def copyNonoverlapping (src : List UInt8) (dst len : Nat) (m : Memory) : Except Fault Memory :=
  if src.length < len then .error .readPastSource
  else .ok (m.storeBytes dst (src.take len))

theorem copyNonoverlapping_ok {src : List UInt8} {len : Nat} (dst : Nat) (m : Memory)
    (hlen : len ≤ src.length) :
    copyNonoverlapping src dst len m = .ok (m.storeBytes dst (src.take len)) := by
  rw [copyNonoverlapping, if_neg (Nat.not_lt.mpr hlen)]

def writeU64 (dst : Nat) (v : UInt64) (m : Memory) : Except Fault Memory :=
  if dst % 8 = 0 then .ok (m.storeBytes dst (leBytes v)) else .error .misaligned

theorem writeU64_ok {dst : Nat} (v : UInt64) (m : Memory) (hdst : dst % 8 = 0) :
    writeU64 dst v m = .ok (m.storeBytes dst (leBytes v)) := by
  rw [writeU64, if_pos hdst]

@[simp] theorem ok_bind {α β : Type} (a : α) (f : α → Except Fault β) :
    (Except.ok a >>= f) = f a := rfl

/-! ### Cutting a stream of words -/

/-- The first `len` bytes of each word from `d` on, for the lengths in turn. -/
def cut (w : Nat → UInt64) (d : Nat) : List Nat → List UInt8
  | [] => []
  | len :: lens => (leBytes (w d)).take len ++ cut w (d + 1) lens

/-- Which byte of which word each byte of `cut` is. -/
def cutPositions (d : Nat) : List Nat → List (Nat × Nat)
  | [] => []
  | len :: lens => (List.range len).map (fun position => (d, position)) ++ cutPositions (d + 1) lens

theorem cut_eq_map (w : Nat → UInt64) (d : Nat) (lens : List Nat) (hlens : ∀ len ∈ lens, len ≤ 8) :
    cut w d lens = (cutPositions d lens).map fun q => leByte (w q.1) q.2 := by
  induction lens generalizing d with
  | nil => rfl
  | cons len lens ih =>
    have hrest := ih (d + 1) (fun l hl => hlens l (List.mem_cons_of_mem len hl))
    rw [cut, cutPositions, List.map_append, List.map_map, hrest,
      take_leBytes _ (hlens len List.mem_cons_self)]
    rfl

theorem length_cutPositions (d : Nat) (lens : List Nat) :
    (cutPositions d lens).length = lens.sum := by
  induction lens generalizing d with
  | nil => rfl
  | cons len lens ih => simp [cutPositions, ih]

theorem length_cut (w : Nat → UInt64) (d : Nat) (lens : List Nat) (hlens : ∀ len ∈ lens, len ≤ 8) :
    (cut w d lens).length = lens.sum := by
  rw [cut_eq_map w d lens hlens, List.length_map, length_cutPositions]

theorem mem_cutPositions {d : Nat} {lens : List Nat} {q : Nat × Nat}
    (hq : q ∈ cutPositions d lens) :
    d ≤ q.1 ∧ q.1 < d + lens.length ∧ ∃ len ∈ lens, q.2 < len := by
  induction lens generalizing d with
  | nil => cases hq
  | cons len lens ih =>
    rw [List.length_cons]
    rcases List.mem_append.mp hq with hq | hq
    · obtain ⟨position, hposition, rfl⟩ := List.mem_map.mp hq
      refine ⟨Nat.le_refl d, by omega, len, List.mem_cons_self, ?_⟩
      exact List.mem_range.mp hposition
    · have ⟨hlow, hhigh, l, hl, hposition⟩ := ih hq
      exact ⟨by omega, by omega, l, List.mem_cons_of_mem len hl, hposition⟩

/-- No byte of a word is used twice. -/
theorem nodup_cutPositions (d : Nat) (lens : List Nat) : (cutPositions d lens).Nodup := by
  induction lens generalizing d with
  | nil => exact List.nodup_nil
  | cons len lens ih =>
    rw [cutPositions, List.nodup_append]
    refine ⟨?_, ih (d + 1), ?_⟩
    · apply List.Nodup.map _ List.nodup_range
      intro i j hij
      exact congrArg Prod.snd hij
    · intro q hq r hr heq
      rcases List.mem_map.mp hq with ⟨position, _, rfl⟩
      have hlow := (mem_cutPositions hr).1
      rw [← heq] at hlow
      have hlt : d + 1 ≤ d := hlow
      omega

theorem cut_append (w : Nat → UInt64) (d : Nat) (lens lens' : List Nat) :
    cut w d (lens ++ lens') = cut w d lens ++ cut w (d + lens.length) lens' := by
  induction lens generalizing d with
  | nil => rfl
  | cons len lens ih =>
    rw [List.cons_append, cut, cut, ih, List.append_assoc, List.length_cons]
    congr 3
    omega

/-- Whole words come out as they are. -/
theorem cut_replicate (w : Nat → UInt64) (d count : Nat) :
    cut w d (List.replicate count 8) = (List.range count).flatMap fun j => leBytes (w (d + j)) := by
  induction count generalizing d with
  | zero => rfl
  | succ count ih =>
    have hword : (leBytes (w d)).take 8 = leBytes (w d) := List.take_of_length_le (by simp)
    rw [List.replicate_succ, cut, ih, hword, List.range_succ_eq_map, List.flatMap_cons,
      List.flatMap_map, Nat.add_zero]
    congr 2
    funext j
    congr 2
    omega

end ByteMemory
