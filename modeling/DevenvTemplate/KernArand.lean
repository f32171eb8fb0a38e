import DevenvTemplate.Lazy

/-!
# The random bytes of NetBSD

`netbsd.rs` calls `getrandom` if the system has it, and else a polyfill over `sysctl`, which
gives 256 bytes at most.  `sys_fill_exact` runs over either.
-/

namespace DevenvTemplate.KernArand

open ByteMemory Getrandom UtilLibc

/-! ### Calls that deliver a part -/

section Capped

variable {os : SysFill} {c : Nat}

/-- A buffer takes at least as many calls as it has parts. -/
theorem len_le_of_capped (hcap : ∀ i buf, (os.call i buf).res.toNat ≤ c) {fuel : Nat} {buf : Slice}
    {s s' : State} (h : sysFillExact os fuel buf s = some (.ok (), s')) :
    buf.len ≤ c * (s'.calls - s.calls) := by
  induction fuel generalizing buf s with
  | zero => simp [sysFillExact] at h
  | succ fuel ih =>
    rw [sysFillExact] at h
    split at h
    · rename_i hempty
      rw [hempty]
      exact Nat.zero_le _
    · have hrest (rest : Slice) (hrest : sysFillExact os fuel rest (called os s buf) =
          some (.ok (), s')) : rest.len + c ≤ c * (s'.calls - s.calls) := by
        have hcalls : s.calls + 1 ≤ s'.calls := calls_le hrest
        have hlen : rest.len ≤ c * (s'.calls - (s.calls + 1)) := ih hrest
        have hsplit : s'.calls - s.calls = s'.calls - (s.calls + 1) + 1 := by omega
        rw [hsplit, Nat.mul_succ]
        exact Nat.add_le_add_right hlen c
      rcases sysFillTurn_cases buf (os.call s.calls buf) with
        ⟨_, hlen, hturn⟩ | ⟨_, _, hturn⟩ | ⟨err, hturn, _⟩
      · simp only [hturn] at h
        have hle := hrest _ h
        have := hcap s.calls buf
        simp only at hle
        omega
      · simp only [hturn] at h
        exact (Nat.le_add_right _ _).trans (hrest _ h)
      · simp [hturn] at h

/-- The first of the parts that a length is taken in. -/
theorem parts_eq_succ {c len : Nat} (hc : 0 < c) (hlen : len ≠ 0) :
    (len + (c - 1)) / c = (len - min len c + (c - 1)) / c + 1 := by
  rw [← Nat.add_div_right _ hc]
  by_cases hle : len ≤ c
  · have hone : (c - 1 + c) / c = 1 := by
      rw [Nat.add_div_right _ hc, Nat.div_eq_of_lt (by omega)]
    have hsplit : len + (c - 1) = len - 1 + c := by omega
    rw [Nat.min_eq_left hle, Nat.sub_self, Nat.zero_add, hone, hsplit, Nat.add_div_right _ hc,
      Nat.div_eq_of_lt (by omega)]
  · rw [Nat.min_eq_right (Nat.le_of_not_le hle)]
    congr 1
    omega

/-- If each call delivers all that it may, it takes just as many. -/
theorem sysFillExact_of_full (hc : 0 < c)
    (hfull : ∀ i buf, buf.len ≠ 0 → (os.call i buf).res = (min buf.len c : Nat)) {fuel : Nat}
    {buf : Slice} (s : State) (hfuel : (buf.len + (c - 1)) / c < fuel) :
    ∃ s', sysFillExact os fuel buf s = some (.ok (), s') ∧
      s'.calls = s.calls + (buf.len + (c - 1)) / c := by
  induction fuel generalizing buf s with
  | zero => exact absurd hfuel (Nat.not_lt_zero _)
  | succ fuel ih =>
    rw [sysFillExact]
    by_cases hempty : buf.len = 0
    · refine ⟨s, if_pos hempty, ?_⟩
      rw [hempty, Nat.zero_add, Nat.div_eq_of_lt (by omega), Nat.add_zero]
    · rw [if_neg hempty]
      have hres := hfull s.calls buf hempty
      have hmin : 0 < min buf.len c := Nat.lt_min.mpr ⟨Nat.pos_of_ne_zero hempty, hc⟩
      have hturn : sysFillTurn buf (os.call s.calls buf) =
          .ok ⟨buf.addr + min buf.len c, buf.len - min buf.len c⟩ := by
        rw [sysFillTurn, hres, if_pos (by omega), Int.toNat_natCast, if_pos (Nat.min_le_left _ _)]
      have hparts := parts_eq_succ hc hempty
      have hfuel' : (buf.len - min buf.len c + (c - 1)) / c < fuel := by omega
      obtain ⟨s', hrun, hcalls⟩ :=
        @ih ⟨buf.addr + min buf.len c, buf.len - min buf.len c⟩ (called os s buf) hfuel'
      refine ⟨s', ?_, ?_⟩
      · simp only [hturn]
        exact hrun
      · simp only [called] at hcalls
        omega

end Capped

/-! ### The polyfill -/

/-- What `sysctl` returns, the length that it stores, and what it writes. -/
structure SysctlResult where
  ret : Int
  errno : I32
  len : Nat
  bytes : List UInt8

/-- `sysctl` for the random bytes of the kernel, by the number of calls made before.  After
    success the length is that of the bytes written, if it is one that the buffer has. -/
structure Sysctl where
  call : Nat → Slice → SysctlResult
  in_buffer : ∀ i buf, (call i buf).bytes.length ≤ buf.len
  delivers : ∀ i buf, (call i buf).ret = 0 → (call i buf).len ≤ buf.len →
    (call i buf).bytes.length = (call i buf).len

/-- The part of the buffer that is asked for. -/
def asked (buf : Slice) : Slice := ⟨buf.addr, min buf.len 256⟩

def polyfillResult (r : SysctlResult) : SysResult :=
  if r.ret = 0 ∧ r.len ≤ 256 then ⟨r.len, r.errno, r.bytes⟩
  else if r.ret = -1 then ⟨-1, r.errno, r.bytes⟩
  else ⟨0, r.errno, r.bytes⟩

@[simp] theorem polyfillResult_bytes (r : SysctlResult) : (polyfillResult r).bytes = r.bytes := by
  unfold polyfillResult
  split
  · rfl
  · split
    · rfl
    · rfl

/-- `polyfill_using_kern_arand` -/
def polyfill (sysctl : Sysctl) : SysFill where
  call i buf := polyfillResult (sysctl.call i (asked buf))
  in_buffer i buf := by
    rw [polyfillResult_bytes]
    exact (sysctl.in_buffer i (asked buf)).trans (Nat.min_le_left _ _)
  delivers i buf := by
    rw [polyfillResult_bytes]
    unfold polyfillResult
    split
    · rename_i hok
      intro _ hlen
      rw [Int.toNat_natCast] at hlen ⊢
      exact sysctl.delivers i (asked buf) hok.1 (Nat.le_min.mpr ⟨hlen, hok.2⟩)
    · split
      · intro hpos
        simp at hpos
      · intro hpos
        simp at hpos

theorem polyfill_capped (sysctl : Sysctl) (i : Nat) (buf : Slice) :
    ((polyfill sysctl).call i buf).res.toNat ≤ 256 := by
  simp only [polyfill, polyfillResult]
  split
  · rename_i hok
    rw [Int.toNat_natCast]
    exact hok.2
  · split
    · exact Nat.zero_le 256
    · exact Nat.zero_le 256

/-- A kernel that delivers what it is asked for. -/
def sevens : Sysctl where
  call _ buf := ⟨0, eintr, buf.len, List.replicate buf.len 7⟩
  in_buffer i buf := by simp
  delivers i buf := by simp

/-! ### `fill_inner` -/

section FillInner

open AtomicCell LabelledRuns RacyInit

variable {w : Nat} {Thread : Type} [DecidableEq Thread] {polyfillPtr : BitVec w}
  {testFallback : Bool} {s₀ s : RacyInit.State Thread (BitVec w) (BitVec w) (BitVec w)}
  {labels : List (Label Thread (BitVec w) (BitVec w))}

/-- `fill_inner` with the function that a call has found, by its address. -/
def fillInner (functions : BitVec w → SysFill) (fptr : BitVec w) :
    Nat → Slice → State → Option (Except Error Unit × State) :=
  sysFillExact (functions fptr)

end FillInner

end DevenvTemplate.KernArand
