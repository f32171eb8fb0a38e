import DevenvTemplate.Getrandom
import Mathlib.Data.Finset.Card

/-!
# Filling a buffer with system calls

`sys_fill_exact` of `util_libc.rs` calls the system until the buffer is full: a call
may deliver fewer bytes than it was asked for, may be interrupted, or may fail.
-/

namespace DevenvTemplate.UtilLibc

open ByteMemory Getrandom

/-! ### `errno` -/

/-- `last_os_error`, given what `errno` holds.  A positive `i32` can always be negated. -/
def lastOsError (errno : I32) : Error :=
  if h : 0 < errno.val then .fromNegErrorCode ⟨-errno.val, by omega⟩
  else .errnoNotPositive

/-- The error of a failed call gives back the `errno` of the call. -/
theorem rawOsError_lastOsError (errno : I32) (h : 0 < errno.val) :
    (lastOsError errno).rawOsError = some errno := by
  have hneg : -errno.val < 0 := Int.neg_neg_of_pos h
  rw [lastOsError, dif_pos h, Error.fromNegErrorCode, dif_pos hneg, Error.rawOsError,
    if_neg (by simp only; omega), checkedNeg, dif_pos (by simp only; omega)]
  simp

theorem rawOsError_lastOsError_of_not_pos (errno : I32) (h : ¬ 0 < errno.val) :
    (lastOsError errno).rawOsError = none := by
  rw [lastOsError, dif_neg h]
  exact Error.rawOsError_newInternal 1

/-! ### The loop -/

/-- What a call returns, what it leaves in `errno`, and what it wrote to the start of
    its buffer. -/
structure SysResult where
  res : Int
  errno : I32
  bytes : List UInt8

/-- A `sys_fill` function, by the number of calls made before.  It stays in its buffer,
    and a positive result is the number of bytes written. -/
structure SysFill where
  call : Nat → Slice → SysResult
  in_buffer : ∀ i buf, (call i buf).bytes.length ≤ buf.len
  delivers : ∀ i buf, 0 < (call i buf).res → (call i buf).res.toNat ≤ buf.len →
    (call i buf).bytes.length = (call i buf).res.toNat

def eintr : I32 := ⟨4, by decide⟩

section Loop

variable (os : SysFill)

/-- The state after the next call on a buffer. -/
def called (s : State) (buf : Slice) : State where
  memory := s.memory.storeBytes buf.addr (os.call s.calls buf).bytes
  calls := s.calls + 1

/-- One turn of the loop on a buffer that is not empty: the rest of the buffer to go on
    with, or the error to return. -/
def sysFillTurn (buf : Slice) (r : SysResult) : Except Error Slice :=
  if 0 < r.res then
    if r.res.toNat ≤ buf.len then .ok ⟨buf.addr + r.res.toNat, buf.len - r.res.toNat⟩
    else .error .unexpected
  else if r.res = -1 then
    let err := lastOsError r.errno
    if err.rawOsError = some eintr then .ok buf else .error err
  else .error .unexpected

/-- `sys_fill_exact` for a number of turns; `none` when it is still at work. -/
def sysFillExact : Nat → Slice → State → Option (Except Error Unit × State)
  | 0, _, _ => none
  | fuel + 1, buf, s =>
    if buf.len = 0 then some (.ok (), s)
    else
      match sysFillTurn buf (os.call s.calls buf) with
      | .ok rest => sysFillExact fuel rest (called os s buf)
      | .error err => some (.error err, called os s buf)

end Loop

/-! ### One turn -/

/-- What one turn can do. -/
theorem sysFillTurn_cases (buf : Slice) (r : SysResult) :
    (0 < r.res ∧ r.res.toNat ≤ buf.len ∧
      sysFillTurn buf r = .ok ⟨buf.addr + r.res.toNat, buf.len - r.res.toNat⟩) ∨
    (r.res = -1 ∧ r.errno = eintr ∧ sysFillTurn buf r = .ok buf) ∨
    ∃ err, sysFillTurn buf r = .error err ∧
      ((r.res = -1 ∧ err = lastOsError r.errno ∧ err.rawOsError ≠ some eintr) ∨
        (err = .unexpected ∧ (r.res = 0 ∨ r.res < -1 ∨ buf.len < r.res.toNat))) := by
  unfold sysFillTurn
  by_cases hpos : 0 < r.res
  · rw [if_pos hpos]
    by_cases hlen : r.res.toNat ≤ buf.len
    · exact Or.inl ⟨hpos, hlen, if_pos hlen⟩
    · exact Or.inr (Or.inr ⟨_, if_neg hlen, Or.inr ⟨rfl, Or.inr (Or.inr (Nat.not_le.mp hlen))⟩⟩)
  · rw [if_neg hpos]
    by_cases hfail : r.res = -1
    · rw [if_pos hfail]
      by_cases hintr : (lastOsError r.errno).rawOsError = some eintr
      · refine Or.inr (Or.inl ⟨hfail, ?_, if_pos hintr⟩)
        by_cases herrno : 0 < r.errno.val
        · rw [rawOsError_lastOsError r.errno herrno] at hintr
          exact Option.some.inj hintr
        · rw [rawOsError_lastOsError_of_not_pos r.errno herrno] at hintr
          cases hintr
      · exact Or.inr (Or.inr ⟨_, if_neg hintr, Or.inl ⟨hfail, rfl, hintr⟩⟩)
    · exact Or.inr (Or.inr ⟨_, if_neg hfail, Or.inr ⟨rfl, by omega⟩⟩)

theorem called_outside (os : SysFill) (buf : Slice) (s : State) (x : Nat)
    (hx : x < buf.addr ∨ buf.addr + buf.len ≤ x) :
    (called os s buf).memory.cells x = s.memory.cells x := by
  apply Memory.storeBytes_outside
  have := os.in_buffer s.calls buf
  omega

/-! ### Whole runs -/

variable {os : SysFill}

/-- Whatever the system does, nothing outside the buffer changes. -/
theorem sysFillExact_outside {fuel : Nat} {buf : Slice} {s s' : State}
    {result : Except Error Unit} (h : sysFillExact os fuel buf s = some (result, s')) (x : Nat)
    (hx : x < buf.addr ∨ buf.addr + buf.len ≤ x) : s'.memory.cells x = s.memory.cells x := by
  induction fuel generalizing buf s with
  | zero => cases h
  | succ fuel ih =>
    rw [sysFillExact] at h
    split at h
    · cases h
      rfl
    · have hcalled := called_outside os buf s x hx
      rcases sysFillTurn_cases buf (os.call s.calls buf) with
        ⟨_, hlen, hturn⟩ | ⟨_, _, hturn⟩ | ⟨err, hturn, _⟩
      · simp only [hturn] at h
        rw [ih h (by simp only; omega), hcalled]
      · simp only [hturn] at h
        rw [ih h hx, hcalled]
      · simp only [hturn] at h
        cases h
        exact hcalled

/-- The byte of the buffer at `i` was delivered by a call of the run. -/
def Delivered (os : SysFill) (buf : Slice) (s s' : State) (i : Nat) : Prop :=
  ∃ j rest position b, s.calls ≤ j ∧ j < s'.calls ∧
    rest.addr + position = buf.addr + i ∧
    position < (os.call j rest).res.toNat ∧ (os.call j rest).bytes[position]? = some b ∧
    s'.memory.cells (buf.addr + i) = some b

theorem calls_le {fuel : Nat} {buf : Slice} {s s' : State} {result : Except Error Unit}
    (h : sysFillExact os fuel buf s = some (result, s')) : s.calls ≤ s'.calls := by
  induction fuel generalizing buf s with
  | zero => cases h
  | succ fuel ih =>
    rw [sysFillExact] at h
    split at h
    · cases h
      exact Nat.le_refl _
    · split at h
      · exact (Nat.le_succ _).trans (ih h)
      · cases h
        exact Nat.le_succ _

/-- **A full buffer.**  When the loop returns `Ok`, every byte of the buffer is one that
    a successful call delivered for that place. -/
theorem sysFillExact_ok {fuel : Nat} {buf : Slice} {s s' : State}
    (h : sysFillExact os fuel buf s = some (.ok (), s')) :
    ∀ i < buf.len, Delivered os buf s s' i := by
  induction fuel generalizing buf s with
  | zero => cases h
  | succ fuel ih =>
    rw [sysFillExact] at h
    split at h
    · rename_i hempty
      intro i hi
      exact absurd (hempty ▸ hi) (Nat.not_lt_zero i)
    · rcases sysFillTurn_cases buf (os.call s.calls buf) with
        ⟨hpos, hlen, hturn⟩ | ⟨_, _, hturn⟩ | ⟨err, hturn, _⟩
      · simp only [hturn] at h
        intro i hi
        by_cases hnow : i < (os.call s.calls buf).res.toNat
        · -- this call delivered the byte, and the rest of the run works behind it
          have hbytes := os.delivers s.calls buf hpos hlen
          have hget : i < (os.call s.calls buf).bytes.length := hbytes ▸ hnow
          have hcell : (called os s buf).memory.cells (buf.addr + i) =
              some ((os.call s.calls buf).bytes[i]) :=
            Memory.storeBytes_inside s.memory buf.addr _ hget
          refine ⟨s.calls, buf, i, _, Nat.le_refl _, calls_le h, rfl, hnow,
            List.getElem?_eq_getElem hget, ?_⟩
          rw [sysFillExact_outside h _ (by simp only; omega), hcell]
        · rcases ih h (i - (os.call s.calls buf).res.toNat) (by simp only; omega) with
            ⟨j, rest, position, b, hlow, hhigh, haddr, hposition, hb, hcell⟩
          simp only at haddr hcell
          have hplace : buf.addr + (os.call s.calls buf).res.toNat +
              (i - (os.call s.calls buf).res.toNat) = buf.addr + i := by omega
          rw [hplace] at haddr hcell
          exact ⟨j, rest, position, b, (Nat.le_succ _).trans hlow, hhigh, haddr, hposition, hb, hcell⟩
      · simp only [hturn] at h
        intro i hi
        rcases ih h i hi with ⟨j, rest, position, b, hlow, hrest⟩
        exact ⟨j, rest, position, b, (Nat.le_succ _).trans hlow, hrest⟩
      · simp only [hturn] at h
        cases h

/-- So the loop keeps the contract of a backend. -/
theorem sysFillExact_initialises {fuel : Nat} {buf : Slice} {s s' : State}
    {result : Except Error Unit} (h : sysFillExact os fuel buf s = some (result, s')) :
    Initialises buf result s' := by
  intro hok c hc
  subst hok
  rcases List.mem_map.mp hc with ⟨i, hi, rfl⟩
  rcases sysFillExact_ok h i (List.mem_range.mp hi) with ⟨_, _, _, b, _, _, _, _, _, hcell⟩
  rw [hcell]
  rfl

/-- **Errors are not interruptions.**  The loop returns an error only for a call that
    failed for another reason, or that returned what it never should. -/
theorem sysFillExact_error {fuel : Nat} {buf : Slice} {s s' : State} {err : Error}
    (h : sysFillExact os fuel buf s = some (.error err, s')) :
    err.rawOsError ≠ some eintr ∧
      ∃ j rest, (err = lastOsError (os.call j rest).errno ∧ (os.call j rest).res = -1) ∨
        (err = .unexpected ∧ ((os.call j rest).res = 0 ∨ (os.call j rest).res < -1 ∨
          rest.len < (os.call j rest).res.toNat)) := by
  induction fuel generalizing buf s with
  | zero => cases h
  | succ fuel ih =>
    rw [sysFillExact] at h
    split at h
    · cases h
    · rcases sysFillTurn_cases buf (os.call s.calls buf) with
        ⟨_, _, hturn⟩ | ⟨_, _, hturn⟩ | ⟨err', hturn, hwhy⟩
      · simp only [hturn] at h
        exact ih h
      · simp only [hturn] at h
        exact ih h
      · simp only [hturn] at h
        cases h
        rcases hwhy with ⟨hres, heq, hne⟩ | ⟨heq, hres⟩
        · exact ⟨hne, s.calls, buf, Or.inl ⟨heq, hres⟩⟩
        · refine ⟨?_, s.calls, buf, Or.inr ⟨heq, hres⟩⟩
          rw [heq, Error.unexpected, Error.rawOsError_newInternal]
          intro hnone
          cases hnone

/-- How many of some calls are still to come. -/
def toCome (interrupted : Finset Nat) (calls : Nat) : Nat :=
  (interrupted.filter fun j => calls ≤ j).card

theorem toCome_succ_le (interrupted : Finset Nat) (calls : Nat) :
    toCome interrupted (calls + 1) ≤ toCome interrupted calls := by
  apply Finset.card_le_card
  intro j hj
  rw [Finset.mem_filter] at hj ⊢
  exact ⟨hj.1, (Nat.le_succ _).trans hj.2⟩

theorem toCome_succ_lt {interrupted : Finset Nat} {calls : Nat} (hmem : calls ∈ interrupted) :
    toCome interrupted (calls + 1) < toCome interrupted calls := by
  apply Finset.card_lt_card
  rw [Finset.ssubset_iff_of_subset]
  · refine ⟨calls, Finset.mem_filter.mpr ⟨hmem, Nat.le_refl _⟩, ?_⟩
    rw [Finset.mem_filter]
    omega
  · intro j hj
    rw [Finset.mem_filter] at hj ⊢
    exact ⟨hj.1, (Nat.le_succ _).trans hj.2⟩

/-- **The loop returns.**  If only the calls of a finite set are interrupted, one turn
    for each of these, for each byte and for the end is enough. -/
theorem sysFillExact_returns {interrupted : Finset Nat}
    (hintr : ∀ j ∉ interrupted, ∀ rest,
      ¬ ((os.call j rest).res = -1 ∧ (os.call j rest).errno = eintr)) (fuel : Nat)
    (buf : Slice) (s : State) (hfuel : buf.len + toCome interrupted s.calls < fuel) :
    ∃ result s', sysFillExact os fuel buf s = some (result, s') := by
  induction fuel generalizing buf s with
  | zero => exact absurd hfuel (Nat.not_lt_zero _)
  | succ fuel ih =>
    rw [sysFillExact]
    split
    · exact ⟨_, _, rfl⟩
    · rcases sysFillTurn_cases buf (os.call s.calls buf) with
        ⟨hpos, hlen, hturn⟩ | ⟨hfail, herrno, hturn⟩ | ⟨err, hturn, _⟩
      · simp only [hturn]
        apply ih
        have hle : toCome interrupted (called os s buf).calls ≤ toCome interrupted s.calls :=
          toCome_succ_le interrupted s.calls
        simp only
        omega
      · -- an interrupted call uses up one of the set
        have hmem : s.calls ∈ interrupted := by
          by_contra hnot
          exact hintr s.calls hnot buf ⟨hfail, herrno⟩
        have hlt : toCome interrupted (called os s buf).calls < toCome interrupted s.calls :=
          toCome_succ_lt hmem
        simp only [hturn]
        apply ih
        omega
      · simp only [hturn]
        exact ⟨_, _, rfl⟩

/-- Each call is interrupted, delivers a byte or is the last. -/
theorem calls_le_add {interrupted : Finset Nat}
    (hintr : ∀ j ∉ interrupted, ∀ rest,
      ¬ ((os.call j rest).res = -1 ∧ (os.call j rest).errno = eintr)) {fuel : Nat} {buf : Slice}
    {s s' : State} {result : Except Error Unit}
    (h : sysFillExact os fuel buf s = some (result, s')) :
    s'.calls ≤ s.calls + (buf.len + toCome interrupted s.calls) := by
  induction fuel generalizing buf s with
  | zero => contradiction
  | succ fuel ih =>
    rw [sysFillExact] at h
    split at h
    · cases h
      exact Nat.le_add_right _ _
    · rcases sysFillTurn_cases buf (os.call s.calls buf) with
        ⟨hpos, hlen, hturn⟩ | ⟨hfail, herrno, hturn⟩ | ⟨err, hturn, _⟩
      · simp only [hturn] at h
        have hrest := ih h
        have hle := toCome_succ_le interrupted s.calls
        simp only [called] at hrest
        omega
      · have hmem : s.calls ∈ interrupted := by
          by_contra hnot
          exact hintr s.calls hnot buf ⟨hfail, herrno⟩
        simp only [hturn] at h
        have hrest := ih h
        have hlt := toCome_succ_lt hmem
        simp only [called] at hrest
        omega
      · simp only [hturn] at h
        cases h
        simp only [called]
        omega

/-- An error is that of the last call. -/
theorem sysFillExact_last {fuel : Nat} {buf : Slice} {s s' : State} {err : Error}
    (h : sysFillExact os fuel buf s = some (.error err, s')) : ∃ j rest, s.calls ≤ j ∧
      s'.calls = j + 1 ∧ sysFillTurn rest (os.call j rest) = .error err := by
  induction fuel generalizing buf s with
  | zero => contradiction
  | succ fuel ih =>
    rw [sysFillExact] at h
    split at h
    · simp at h
    · cases hturn : sysFillTurn buf (os.call s.calls buf) with
      | ok rest =>
        simp only [hturn] at h
        rcases ih h with ⟨j, rest', hle, hcalls, hfails⟩
        exact ⟨j, rest', (Nat.le_succ _).trans hle, hcalls, hfails⟩
      | error err' =>
        simp only [hturn] at h
        cases h
        exact ⟨s.calls, buf, Nat.le_refl _, rfl, hturn⟩

/-- A system that delivers one byte at a time, and whose first call is interrupted. -/
def ones : SysFill where
  call i buf := if i = 0 then ⟨-1, eintr, []⟩ else ⟨1, eintr, [1].take buf.len⟩
  in_buffer i buf := by
    split
    · exact Nat.zero_le _
    · simp
  delivers i buf := by
    split
    · intro hpos
      simp at hpos
    · intro _ hlen
      simpa using hlen

end DevenvTemplate.UtilLibc
