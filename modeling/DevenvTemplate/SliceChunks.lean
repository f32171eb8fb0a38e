import DevenvTemplate.ByteMemory

/-!
# Chunks of a slice

`chunks_mut`: a slice cut into pieces of one size, with a shorter one at the end.  The
pieces lie side by side (`Tiles`), so that what is stored to them one after the other is
stored to the slice (`storeChunks_eq`).
-/

namespace ByteMemory

/-- The pieces of the `len` elements from `addr` on, with as many turns as there may be. -/
def chunksFrom (size : Nat) : Nat → Nat → Nat → List Slice
  | 0, _, _ => []
  | turns + 1, addr, len =>
    if len = 0 then [] else ⟨addr, min size len⟩ :: chunksFrom size turns (addr + size) (len - size)

/-- `chunks_mut` -/
def chunksMut (size : Nat) (dest : Slice) : List Slice :=
  chunksFrom size dest.len dest.addr dest.len

/-- Slices side by side that make up the `len` elements from `addr` on. -/
inductive Tiles : Nat → Nat → List Slice → Prop
  | nil {addr : Nat} : Tiles addr 0 []
  | cons {addr len : Nat} {chunk : Slice} {chunks : List Slice} (haddr : chunk.addr = addr)
      (hlen : chunk.len ≤ len) (hrest : Tiles (addr + chunk.len) (len - chunk.len) chunks) :
      Tiles addr len (chunk :: chunks)

theorem tiles_append {addr len : Nat} {chunks chunks' : List Slice}
    (h : Tiles addr len (chunks ++ chunks')) :
    ∃ n, n ≤ len ∧ Tiles addr n chunks ∧ Tiles (addr + n) (len - n) chunks' := by
  induction chunks generalizing addr len with
  | nil => exact ⟨0, Nat.zero_le _, Tiles.nil, h⟩
  | cons chunk chunks ih =>
    cases h with
    | cons haddr hlen hrest =>
      rcases ih hrest with ⟨n, hn, hbefore, hafter⟩
      have hsub : chunk.len + n - chunk.len = n := by omega
      refine ⟨chunk.len + n, by omega, Tiles.cons haddr (Nat.le_add_right _ _) ?_, ?_⟩
      · rw [hsub]
        exact hbefore
      · rw [← Nat.add_assoc, ← Nat.sub_sub]
        exact hafter

section Chunks

variable {size : Nat} (hsize : 0 < size)

include hsize

theorem tiles_chunksFrom (turns addr len : Nat) (hturns : len ≤ turns) :
    Tiles addr len (chunksFrom size turns addr len) := by
  induction turns generalizing addr len with
  | zero =>
    have hzero : len = 0 := Nat.le_zero.mp hturns
    subst hzero
    exact Tiles.nil
  | succ turns ih =>
    rw [chunksFrom]
    split
    · rename_i hzero
      subst hzero
      exact Tiles.nil
    · by_cases hle : size ≤ len
      · rw [Nat.min_eq_left hle]
        exact Tiles.cons rfl hle (ih _ _ (by simp only; omega))
      · rw [Nat.min_eq_right (Nat.le_of_not_le hle)]
        refine Tiles.cons rfl (Nat.le_refl len) ?_
        have hnone : len - size = 0 := by omega
        have hnone' : len - len = 0 := Nat.sub_self len
        simp only [hnone, hnone']
        cases turns with
        | zero => exact Tiles.nil
        | succ turns =>
          rw [chunksFrom, if_pos rfl]
          exact Tiles.nil

theorem tiles_chunksMut (dest : Slice) : Tiles dest.addr dest.len (chunksMut size dest) :=
  tiles_chunksFrom hsize dest.len dest.addr dest.len (Nat.le_refl _)

theorem len_of_mem_chunksFrom {turns addr len : Nat} {chunk : Slice}
    (hmem : chunk ∈ chunksFrom size turns addr len) : 0 < chunk.len ∧ chunk.len ≤ size := by
  induction turns generalizing addr len with
  | zero => simp [chunksFrom] at hmem
  | succ turns ih =>
    rw [chunksFrom] at hmem
    split at hmem
    · simp at hmem
    · rename_i hlen
      rcases List.mem_cons.mp hmem with rfl | hmem
      · simp only
        omega
      · exact ih hmem

/-- No chunk is empty, and none is longer than the size. -/
theorem len_of_mem_chunksMut {dest chunk : Slice} (hmem : chunk ∈ chunksMut size dest) :
    0 < chunk.len ∧ chunk.len ≤ size :=
  len_of_mem_chunksFrom hsize hmem

end Chunks

/-- A size beyond the slice cuts nothing off. -/
theorem chunksMut_of_le {size : Nat} {dest : Slice} (hlen : dest.len ≠ 0) (hle : dest.len ≤ size) :
    chunksMut size dest = [dest] := by
  rcases dest with ⟨addr, len⟩
  cases len with
  | zero => exact absurd rfl hlen
  | succ len =>
    have hnone : len + 1 - size = 0 := by
      simp only at hle
      omega
    rw [chunksMut, chunksFrom, if_neg hlen, Nat.min_eq_right hle, hnone]
    cases len with
    | zero => rfl
    | succ len => rfl

theorem chunksMut_min {size : Nat} {dest : Slice} (hlen : dest.len ≠ 0) :
    chunksMut (min dest.len size) dest = chunksMut size dest := by
  by_cases hle : dest.len ≤ size
  · rw [Nat.min_eq_left hle, chunksMut_of_le hlen (Nat.le_refl _), chunksMut_of_le hlen hle]
  · rw [Nat.min_eq_right (Nat.le_of_not_le hle)]

/-! ### Storing to the chunks -/

/-- Store something to each chunk in turn. -/
def Memory.storeChunks (m : Memory) : List (Slice × List UInt8) → Memory
  | [] => m
  | (chunk, bytes) :: rest => (m.storeBytes chunk.addr bytes).storeChunks rest

/-- Chunks that are filled are the slice that is filled. -/
theorem storeChunks_eq {addr len : Nat} {pieces : List (Slice × List UInt8)} (m : Memory)
    (htiles : Tiles addr len (pieces.map Prod.fst)) (hfull : ∀ p ∈ pieces, p.2.length = p.1.len) :
    m.storeChunks pieces = m.storeBytes addr (pieces.flatMap Prod.snd) ∧
      (pieces.flatMap Prod.snd).length = len := by
  induction pieces generalizing m addr len with
  | nil =>
    cases htiles with
    | nil => exact ⟨rfl, rfl⟩
  | cons piece pieces ih =>
    cases htiles with
    | cons haddr hle hrest =>
      have hpiece := hfull piece List.mem_cons_self
      obtain ⟨hstore, hlength⟩ := ih (m.storeBytes piece.1.addr piece.2) hrest
        (fun p hp => hfull p (List.mem_cons_of_mem piece hp))
      constructor
      · rw [Memory.storeChunks, hstore, List.flatMap_cons, Memory.storeBytes_append, haddr, hpiece]
      · rw [List.flatMap_cons, List.length_append, hlength, hpiece]
        omega

end ByteMemory
