import DevenvTemplate.SysFill

/-!
# System calls without libc

`linux_raw.rs` and `hermit.rs` call the kernel themselves: an error is a negative return
value, where libc returns `-1` and sets `errno`.  Their loops do what `sys_fill_exact` does
over the wrapper of libc.
-/

namespace DevenvTemplate.RawSyscalls

open ByteMemory Getrandom UtilLibc

/-! ### The kernel -/

/-- What a call returns, and what it wrote to the start of its buffer. -/
structure RawResult where
  ret : Int
  bytes : List UInt8

/-- A system call that fills a buffer, by the number of calls made before. -/
structure RawSys where
  call : Nat → Slice → RawResult
  in_buffer : ∀ i buf, (call i buf).bytes.length ≤ buf.len
  delivers : ∀ i buf, 0 < (call i buf).ret → (call i buf).ret.toNat ≤ buf.len →
    (call i buf).bytes.length = (call i buf).ret.toNat

/-- The kernel returns errors as `-4095` to `-1`. -/
def RawSys.Errors (raw : RawSys) : Prop := ∀ i buf, -4095 ≤ (raw.call i buf).ret

/-- `i32::try_from` -/
def i32TryFrom (x : Int) : Option I32 :=
  if h : -0x80000000 ≤ x ∧ x < 0x80000000 then some ⟨x, h⟩ else none

/-- What libc makes of a return value. -/
def libcResult (r : RawResult) : SysResult :=
  if h : -4095 ≤ r.ret ∧ r.ret < 0 then ⟨-1, ⟨-r.ret, by omega⟩, r.bytes⟩
  else ⟨r.ret, ⟨0, by decide⟩, r.bytes⟩

@[simp] theorem bytes_libcResult (r : RawResult) : (libcResult r).bytes = r.bytes := by
  unfold libcResult
  split
  · rfl
  · rfl

theorem libcResult_of_nonneg {r : RawResult} (h : 0 ≤ r.ret) :
    libcResult r = ⟨r.ret, ⟨0, by decide⟩, r.bytes⟩ :=
  dif_neg fun hneg => absurd h (Int.not_le.mpr hneg.2)

theorem libcResult_of_neg {r : RawResult} (h : -4095 ≤ r.ret ∧ r.ret < 0) :
    libcResult r = ⟨-1, ⟨-r.ret, by omega⟩, r.bytes⟩ :=
  dif_pos h

/-- The call through libc. -/
def libc (raw : RawSys) : SysFill where
  call i buf := libcResult (raw.call i buf)
  in_buffer i buf := by
    rw [bytes_libcResult]
    exact raw.in_buffer i buf
  delivers i buf := by
    intro hpos hlen
    rw [bytes_libcResult]
    by_cases h : 0 ≤ (raw.call i buf).ret
    · rw [libcResult_of_nonneg h] at hpos hlen ⊢
      exact raw.delivers i buf hpos hlen
    · by_cases hlow : -4095 ≤ (raw.call i buf).ret
      · rw [libcResult_of_neg ⟨hlow, Int.not_le.mp h⟩] at hpos
        exact absurd hpos (show ¬ (0 : Int) < -1 by decide)
      · rw [libcResult, dif_neg fun hneg => hlow hneg.1] at hpos
        exact absurd (Int.le_of_lt hpos) h

/-! ### `linux_raw.rs` -/

def eintrRet : Int := -4

/-- The state after the next call on a buffer. -/
def rawCalled (raw : RawSys) (s : State) (dest : Slice) : State where
  memory := s.memory.storeBytes dest.addr (raw.call s.calls dest).bytes
  calls := s.calls + 1

/-- `fill_inner` for a number of turns; `none` when it is still at work. -/
def fillInner (raw : RawSys) : Nat → Slice → State → Option (Except Error Unit × State)
  | 0, _, _ => none
  | fuel + 1, dest, s =>
    let ret := (raw.call s.calls dest).ret
    let s' := rawCalled raw s dest
    if ret = 0 then some (.error .unexpected, s')
    else if 0 < ret then
      if ret.toNat ≤ dest.len then
        if dest.len - ret.toNat = 0 then some (.ok (), s')
        else fillInner raw fuel ⟨dest.addr + ret.toNat, dest.len - ret.toNat⟩ s'
      else some (.error .unexpected, s')
    else if ret = eintrRet then fillInner raw fuel dest s'
    else
      match i32TryFrom ret with
      | none => some (.error .unexpected, s')
      | some code => some (.error (.fromNegErrorCode code), s')

/-! ### `hermit.rs` -/

/-- `fill_inner` of Hermit, which passes interruptions on. -/
def hermitFillInner (raw : RawSys) : Nat → Slice → State → Option (Except Error Unit × State)
  | 0, _, _ => none
  | fuel + 1, dest, s =>
    if dest.len = 0 then some (.ok (), s)
    else
      let res := (raw.call s.calls dest).ret
      let s' := rawCalled raw s dest
      if 0 < res then
        if res.toNat ≤ dest.len then
          hermitFillInner raw fuel ⟨dest.addr + res.toNat, dest.len - res.toNat⟩ s'
        else some (.error .unexpected, s')
      else
        match i32TryFrom res with
        | none => some (.error .unexpected, s')
        | some code => some (.error (.fromNegErrorCode code), s')

/-! ### One turn -/

section Turn

variable {r : RawResult} {dest : Slice}

theorem turn_of_delivered (hpos : 0 < r.ret) (hlen : r.ret.toNat ≤ dest.len) :
    sysFillTurn dest (libcResult r) =
      .ok ⟨dest.addr + r.ret.toNat, dest.len - r.ret.toNat⟩ := by
  rw [libcResult_of_nonneg (Int.le_of_lt hpos), sysFillTurn, if_pos hpos, if_pos hlen]

theorem turn_of_too_many (hpos : 0 < r.ret) (hlen : ¬ r.ret.toNat ≤ dest.len) :
    sysFillTurn dest (libcResult r) = .error .unexpected := by
  rw [libcResult_of_nonneg (Int.le_of_lt hpos), sysFillTurn, if_pos hpos, if_neg hlen]

theorem turn_of_zero (hzero : r.ret = 0) : sysFillTurn dest (libcResult r) = .error .unexpected := by
  rw [libcResult_of_nonneg (Int.le_of_eq hzero.symm), sysFillTurn, hzero]
  rfl

/-- libc sets `errno`, and `last_os_error` makes the code negative again. -/
theorem turn_of_neg (hlow : -4095 ≤ r.ret) (hneg : r.ret < 0) :
    sysFillTurn dest (libcResult r) =
      if r.ret = eintrRet then .ok dest
      else .error (.fromNegErrorCode ⟨r.ret, by omega⟩) := by
  have hpos : 0 < -r.ret := Int.neg_pos_of_neg hneg
  have herr : lastOsError ⟨-r.ret, by omega⟩ = .fromNegErrorCode ⟨r.ret, by omega⟩ := by
    rw [lastOsError, dif_pos hpos]
    simp
  have hraw : (lastOsError ⟨-r.ret, by omega⟩).rawOsError = some ⟨-r.ret, by omega⟩ :=
    rawOsError_lastOsError _ hpos
  rw [libcResult_of_neg ⟨hlow, hneg⟩, sysFillTurn, if_neg (show ¬ (0 : Int) < -1 by decide),
    if_pos rfl]
  show (if (lastOsError ⟨-r.ret, by omega⟩).rawOsError = some eintr then Except.ok dest
    else .error (lastOsError ⟨-r.ret, by omega⟩)) = _
  rw [hraw, herr]
  by_cases hintr : r.ret = eintrRet
  · have herrno : (⟨-r.ret, by omega⟩ : I32) = eintr := by
      apply Subtype.ext
      show -r.ret = 4
      rw [hintr]
      rfl
    rw [if_pos hintr, if_pos (congrArg some herrno)]
  · rw [if_neg hintr, if_neg]
    intro heq
    have hval : -r.ret = 4 := congrArg Subtype.val (Option.some.inj heq)
    apply hintr
    show r.ret = -4
    omega

theorem i32TryFrom_of_neg (hlow : -4095 ≤ r.ret) (hneg : r.ret < 0) :
    i32TryFrom r.ret = some ⟨r.ret, by omega⟩ :=
  dif_pos (by omega)

end Turn

/-! ### The loops -/

section Loop

variable {raw : RawSys} {dest : Slice} {s : State} {x : Except Error Unit × State}

theorem called_libc : called (libc raw) s dest = rawCalled raw s dest := by
  simp [called, rawCalled, libc]

theorem sysFillExact_libc (fuel : Nat) (hlen : dest.len ≠ 0) :
    sysFillExact (libc raw) (fuel + 1) dest s =
      match sysFillTurn dest (libcResult (raw.call s.calls dest)) with
      | .ok rest => sysFillExact (libc raw) fuel rest (rawCalled raw s dest)
      | .error err => some (.error err, rawCalled raw s dest) := by
  rw [sysFillExact, if_neg hlen, called_libc]
  rfl

/-- What is left after a turn of the loop is done by what is left of the other. -/
theorem sysFillExact_of_fillInner (hraw : raw.Errors) {fuel : Nat} (hlen : dest.len ≠ 0)
    (h : fillInner raw fuel dest s = some x) :
    sysFillExact (libc raw) (fuel + 1) dest s = some x := by
  induction fuel generalizing dest s with
  | zero => simp [fillInner] at h
  | succ fuel ih =>
    rw [sysFillExact_libc _ hlen]
    simp only [fillInner] at h
    by_cases hpos : 0 < (raw.call s.calls dest).ret
    · rw [if_neg (Int.ne_of_gt hpos), if_pos hpos] at h
      by_cases hfits : (raw.call s.calls dest).ret.toNat ≤ dest.len
      · rw [if_pos hfits] at h
        simp only [turn_of_delivered hpos hfits]
        by_cases hfull : dest.len - (raw.call s.calls dest).ret.toNat = 0
        · rw [if_pos hfull] at h
          rw [sysFillExact, if_pos hfull]
          exact h
        · rw [if_neg hfull] at h
          exact ih hfull h
      · rw [if_neg hfits] at h
        simp only [turn_of_too_many hpos hfits]
        exact h
    · by_cases hzero : (raw.call s.calls dest).ret = 0
      · rw [if_pos hzero] at h
        simp only [turn_of_zero hzero]
        exact h
      · have hneg : (raw.call s.calls dest).ret < 0 := by omega
        rw [if_neg hzero, if_neg hpos] at h
        simp only [turn_of_neg (hraw s.calls dest) hneg]
        by_cases hintr : (raw.call s.calls dest).ret = eintrRet
        · simp only [if_pos hintr] at h ⊢
          exact ih hlen h
        · simp only [if_neg hintr, i32TryFrom_of_neg (hraw s.calls dest) hneg] at h
          simp only [if_neg hintr]
          exact h

theorem fillInner_of_sysFillExact (hraw : raw.Errors) {fuel : Nat} (hlen : dest.len ≠ 0)
    (h : sysFillExact (libc raw) fuel dest s = some x) : fillInner raw fuel dest s = some x := by
  induction fuel generalizing dest s with
  | zero => simp [sysFillExact] at h
  | succ fuel ih =>
    rw [sysFillExact_libc _ hlen] at h
    simp only [fillInner]
    by_cases hpos : 0 < (raw.call s.calls dest).ret
    · rw [if_neg (Int.ne_of_gt hpos), if_pos hpos]
      by_cases hfits : (raw.call s.calls dest).ret.toNat ≤ dest.len
      · rw [if_pos hfits]
        simp only [turn_of_delivered hpos hfits] at h
        by_cases hfull : dest.len - (raw.call s.calls dest).ret.toNat = 0
        · rw [if_pos hfull]
          cases fuel with
          | zero => simp [sysFillExact] at h
          | succ fuel =>
            rw [sysFillExact, if_pos hfull] at h
            exact h
        · rw [if_neg hfull]
          exact ih hfull h
      · rw [if_neg hfits]
        simp only [turn_of_too_many hpos hfits] at h
        exact h
    · by_cases hzero : (raw.call s.calls dest).ret = 0
      · rw [if_pos hzero]
        simp only [turn_of_zero hzero] at h
        exact h
      · have hneg : (raw.call s.calls dest).ret < 0 := by omega
        rw [if_neg hzero, if_neg hpos]
        simp only [turn_of_neg (hraw s.calls dest) hneg] at h
        by_cases hintr : (raw.call s.calls dest).ret = eintrRet
        · simp only [if_pos hintr] at h ⊢
          exact ih hlen h
        · simp only [if_neg hintr] at h
          simp only [if_neg hintr, i32TryFrom_of_neg (hraw s.calls dest) hneg]
          exact h

/-- **The raw system call and libc agree.**  On a buffer that is not empty the loop of
    `linux_raw.rs` ends with the same result and the same memory as `sys_fill_exact` over
    the wrapper of libc, and goes on for ever when that does. -/
theorem fillInner_iff (hraw : raw.Errors) (hlen : dest.len ≠ 0) :
    (∃ fuel, fillInner raw fuel dest s = some x) ↔
      ∃ fuel, sysFillExact (libc raw) fuel dest s = some x := by
  constructor
  · rintro ⟨fuel, h⟩
    exact ⟨fuel + 1, sysFillExact_of_fillInner hraw hlen h⟩
  · rintro ⟨fuel, h⟩
    exact ⟨fuel, fillInner_of_sysFillExact hraw hlen h⟩

/-- A kernel that is interrupted at first, and then delivers byte by byte. -/
def interruptedOnce : RawSys where
  call i buf := if i = 0 ∨ buf.len = 0 then ⟨-4, []⟩ else ⟨1, [7]⟩
  in_buffer i buf := by
    split
    · exact Nat.zero_le _
    · rename_i hnot
      simp only [List.length_singleton]
      omega
  delivers i buf := by
    split
    · intro hpos
      simp at hpos
    · intro _ _
      rfl

theorem interruptedOnce_errors : interruptedOnce.Errors := by
  intro i buf
  simp only [interruptedOnce]
  split
  · decide
  · decide

theorem fillInner_iff_interruptedOnce :
    ∃ fuel, sysFillExact (libc interruptedOnce) fuel ⟨0, 1⟩ ⟨⟨fun _ => none, []⟩, 0⟩ =
      some (.ok (), ⟨(⟨fun _ => none, []⟩ : Memory).storeBytes 0 [7], 2⟩) :=
  (fillInner_iff interruptedOnce_errors (by decide)).mp ⟨2, rfl⟩

/-- A kernel that is never interrupted makes Hermit's loop the same one. -/
theorem hermitFillInner_eq (hraw : raw.Errors)
    (hintr : ∀ i buf, (raw.call i buf).ret ≠ eintrRet) (fuel : Nat) :
    hermitFillInner raw fuel dest s = sysFillExact (libc raw) fuel dest s := by
  induction fuel generalizing dest s with
  | zero => rfl
  | succ fuel ih =>
    by_cases hlen : dest.len = 0
    · simp only [hermitFillInner, sysFillExact, if_pos hlen]
    · rw [sysFillExact_libc _ hlen, hermitFillInner, if_neg hlen]
      by_cases hpos : 0 < (raw.call s.calls dest).ret
      · by_cases hfits : (raw.call s.calls dest).ret.toNat ≤ dest.len
        · simp only [if_pos hpos, if_pos hfits, turn_of_delivered hpos hfits]
          exact ih
        · simp only [if_pos hpos, if_neg hfits, turn_of_too_many hpos hfits]
      · by_cases hzero : (raw.call s.calls dest).ret = 0
        · simp only [turn_of_zero hzero, hzero]
          rfl
        · have hneg : (raw.call s.calls dest).ret < 0 := by omega
          simp only [if_neg hpos, turn_of_neg (hraw s.calls dest) hneg,
            if_neg (hintr s.calls dest), i32TryFrom_of_neg (hraw s.calls dest) hneg]

end Loop

end DevenvTemplate.RawSyscalls
