import DevenvTemplate.Attempts
import DevenvTemplate.Getrandom

/-!
# Random words from the processor

`rdrand.rs` and `rndr.rs` read one word at a time, with an instruction that may fail and is
then tried again a few times.  Both fill the buffer by whole words and cut the last one.
`rdrand.rs` tests the instruction before it is used.
-/

namespace DevenvTemplate.HardwareWords

open ByteMemory Getrandom Attempts

/-! ### Words -/

/-- `RETRY_LIMIT` of `rdrand.rs` -/
def rdrandLimit : Nat := 10

/-- `RETRY_LIMIT` of `rndr.rs` -/
def rndrLimit : Nat := 5

/-- `_rdrand64_step`: the flag and the value. -/
def rdrandStep (instr : Nat → Nat × UInt64) (i : Nat) : Option UInt64 :=
  if (instr i).1 = 1 then some (instr i).2 else none

/-- One read of the RNDR register: the flags and the value. -/
def rndrStep (instr : Nat → Nat × UInt64) (i : Nat) : Option UInt64 :=
  if (instr i).1 = 0 then some (instr i).2 else none

/-- `rdrand`, from an attempt on. -/
def rdrand (instr : Nat → Nat × UInt64) : Nat → Option UInt64 × Nat :=
  draw (rdrandStep instr) rdrandLimit

/-- `rndr` -/
def rndr (instr : Nat → Nat × UInt64) : Nat → Option UInt64 × Nat :=
  draw (rndrStep instr) rndrLimit

/-! ### Filling the buffer -/

section Fill

variable (word : Nat → Option UInt64 × Nat)

/-- The loop over `chunks_exact_mut`. -/
def fillChunksExact : Nat → Nat → State → Option Unit × State
  | 0, _, s => (some (), s)
  | count + 1, addr, s =>
    match word s.calls with
    | (none, calls) => (none, ⟨s.memory, calls⟩)
    | (some src, calls) =>
      fillChunksExact count (addr + 8) ⟨s.memory.storeBytes addr (leBytes src), calls⟩

/-- `rdrand_exact` and `rndr_fill`: the whole words, and then the remainder. -/
def fillExact (dest : Slice) (s : State) : Option Unit × State :=
  match fillChunksExact word (dest.len / 8) dest.addr s with
  | (none, s) => (none, s)
  | (some (), s) =>
    let n := dest.len % 8
    if 0 < n then
      match word s.calls with
      | (none, calls) => (none, ⟨s.memory, calls⟩)
      | (some src, calls) =>
        (some (), ⟨s.memory.storeBytes (dest.addr + (dest.len - n)) ((leBytes src).take n), calls⟩)
    else (some (), s)

end Fill

/-! ### `rdrand.rs` -/

/-- `NO_RDRAND` -/
def noRdrand : Error := .newInternal 11

/-- `FAILED_RDRAND` -/
def failedRdrand : Error := .newInternal 10

/-- `fill_inner`, given what `RDRAND_GOOD` says. -/
def rdrandFillInner (good : Bool) (instr : Nat → Nat × UInt64) (dest : Slice) (s : State) :
    Except Error Unit × State :=
  if !good then (.error noRdrand, s)
  else
    match fillExact (rdrand instr) dest s with
    | (some (), s) => (.ok (), s)
    | (none, s) => (.error failedRdrand, s)

/-- The loop of `self_test`: the word before and how often one came again. -/
def selfTestLoop (instr : Nat → Nat × UInt64) :
    Nat → UInt64 → Nat → Nat → Option Nat × Nat
  | 0, _, fails, a => (some fails, a)
  | turns + 1, prev, fails, a =>
    match rdrand instr a with
    | (none, a) => (none, a)
    | (some val, a) =>
      if val = prev then selfTestLoop instr turns prev (fails + 1) a
      else selfTestLoop instr turns val fails a

/-- `self_test`, which begins with the word that AMD returns on failure. -/
def selfTest (instr : Nat → Nat × UInt64) (a : Nat) : Bool × Nat :=
  match selfTestLoop instr 8 (~~~0) 0 a with
  | (none, a) => (false, a)
  | (some fails, a) => (decide (fails ≤ 2), a)

/-- What `cpuid` says: `eax`, `ebx`, `ecx` and `edx` of leaf 0, and `eax` and `ecx` of leaf 1. -/
structure Cpuid where
  maxLeaf : UInt32
  vendorId : List UInt8
  signature : UInt32
  features : UInt32

/-- The family of the processor, with its extension. -/
def Cpuid.family (cpuid : Cpuid) : UInt32 :=
  let family := (cpuid.signature >>> 8) &&& 0xF
  if family = 0xF then family + ((cpuid.signature >>> 20) &&& 0xFF) else family

/-- The bytes of `AuthenticAMD`. -/
def authenticAMD : List UInt8 :=
  [0x41, 0x75, 0x74, 0x68, 0x65, 0x6E, 0x74, 0x69, 0x63, 0x41, 0x4D, 0x44]

/-- `is_rdrand_good`, where the feature is not known at compile time; its flag is bit 30. -/
def isRdrandGood (cpuid : Cpuid) (instr : Nat → Nat × UInt64) (a : Nat) : Bool × Nat :=
  if cpuid.maxLeaf < 1 then (false, a)
  else if cpuid.vendorId = authenticAMD ∧ cpuid.family < 0x17 then (false, a)
  else if cpuid.features &&& 0x40000000 = 0 then (false, a)
  else selfTest instr a

/-! ### `rndr.rs` -/

/-- `RNDR_NOT_AVAILABLE` -/
def rndrNotAvailable : Error := .newInternal 11

/-- `RNDR_FAILURE` -/
def rndrFailure : Error := .newInternal 10

/-- `fill_inner`, given what `is_rndr_available` says. -/
def rndrFillInner (available : Bool) (instr : Nat → Nat × UInt64) (dest : Slice) (s : State) :
    Except Error Unit × State :=
  if !available then (.error rndrNotAvailable, s)
  else
    match fillExact (rndr instr) dest s with
    | (some (), s) => (.ok (), s)
    | (none, s) => (.error rndrFailure, s)

/-! ### What is filled -/

section Fill

variable (step : Nat → Option UInt64) (limit : Nat)

theorem length_flatMap_leBytes (ws : List UInt64) : (ws.flatMap leBytes).length = 8 * ws.length := by
  induction ws with
  | nil => rfl
  | cons v ws ih =>
    rw [List.flatMap_cons, List.length_append, ih, length_leBytes, List.length_cons]
    omega

/-- The loop over whole words stores what is drawn. -/
theorem fillChunksExact_eq (count addr : Nat) (s : State) :
    fillChunksExact (draw step limit) count addr s =
      (if (drawMany step limit count s.calls).2.1 then some () else none,
        ⟨s.memory.storeBytes addr ((drawMany step limit count s.calls).1.flatMap leBytes),
          (drawMany step limit count s.calls).2.2⟩) := by
  induction count generalizing addr s with
  | zero => rfl
  | succ count ih =>
    cases hdraw : draw step limit s.calls with
    | mk word calls =>
      cases word with
      | none =>
        simp only [fillChunksExact, drawMany, hdraw]
        rfl
      | some v =>
        simp only [fillChunksExact, drawMany, hdraw, ih, List.flatMap_cons,
          Memory.storeBytes_append, length_leBytes]

/-- What a call of the backend leaves, for the words that it got from the processor. -/
structure FilledWith (dest : Slice) (s : State) (result : Option Unit) (s' : State)
    (ws : List UInt64) : Prop where
  calls : s.calls ≤ s'.calls
  /-- No word is left out, and none is used twice. -/
  words : ws = successes step s.calls s'.calls
  ok : result = some () → ws.length = (dest.len + 7) / 8 ∧ s'.calls ≤ s.calls + limit * ws.length ∧
    s'.memory = s.memory.storeBytes dest.addr ((ws.flatMap leBytes).take dest.len)
  failed : result = none → ws.length < (dest.len + 7) / 8 ∧
    s'.memory = s.memory.storeBytes dest.addr (ws.flatMap leBytes) ∧
    ∃ b, s.calls ≤ b ∧ s'.calls = b + limit ∧ ∀ j < limit, step (b + j) = none

/-- A buffer that is not a multiple of a word ends with a part of one more. -/
theorem fillExact_of_tail {dest : Slice} {s s' : State} (hn : 0 < dest.len % 8)
    (hloop : fillChunksExact (draw step limit) (dest.len / 8) dest.addr s = (some (), s')) :
    fillExact (draw step limit) dest s = match draw step limit s'.calls with
      | (none, calls) => (none, ⟨s'.memory, calls⟩)
      | (some src, calls) =>
        (some (), ⟨s'.memory.storeBytes (dest.addr + (dest.len - dest.len % 8))
          ((leBytes src).take (dest.len % 8)), calls⟩) := by
  simp only [fillExact, hloop, if_pos hn]

/-- The words of the whole chunks and the part of the last one. -/
theorem take_flatMap_leBytes {len : Nat} {ws : List UInt64} (hlength : ws.length = len / 8)
    (v : UInt64) : ((ws ++ [v]).flatMap leBytes).take len =
      ws.flatMap leBytes ++ (leBytes v).take (len % 8) := by
  have hbytes : (ws.flatMap leBytes).length = 8 * (len / 8) := by
    rw [length_flatMap_leBytes, hlength]
  rw [List.flatMap_append, List.take_append, List.flatMap_singleton,
    List.take_of_length_le (by omega), hbytes]
  congr 2
  omega

end Fill

/-! ### What the self test finds -/

section SelfTest

variable (instr : Nat → Nat × UInt64)

/-- How often a word is the one before it. -/
def repeats : UInt64 → List UInt64 → Nat
  | _, [] => 0
  | prev, val :: vals => (if val = prev then 1 else 0) + repeats val vals

/-- A word that comes again is the one before, whether it was kept or not. -/
theorem selfTestLoop_eq (turns : Nat) (prev : UInt64) (fails a : Nat) :
    selfTestLoop instr turns prev fails a =
      (if (drawMany (rdrandStep instr) rdrandLimit turns a).2.1 then
        some (fails + repeats prev (drawMany (rdrandStep instr) rdrandLimit turns a).1) else none,
        (drawMany (rdrandStep instr) rdrandLimit turns a).2.2) := by
  induction turns generalizing prev fails a with
  | zero => rfl
  | succ turns ih =>
    cases hdraw : draw (rdrandStep instr) rdrandLimit a with
    | mk word b =>
      cases word with
      | none =>
        simp only [selfTestLoop, rdrand, drawMany, hdraw]
        rfl
      | some val =>
        by_cases hval : val = prev
        · subst hval
          simp only [selfTestLoop, rdrand, drawMany, hdraw, if_true, ih, repeats, Nat.add_assoc]
        · simp only [selfTestLoop, rdrand, drawMany, hdraw, if_neg hval, ih, repeats, Nat.zero_add]

/-- **The self test.**  It passes if and only if eight words could be drawn, and at most two
    of them are the word before; the words are all that the instruction delivered. -/
theorem selfTest_spec (a : Nat) :
    ∃ ws, ws = successes (rdrandStep instr) a (selfTest instr a).2 ∧
      ((ws.length = 8 ∧ ((selfTest instr a).1 = true ↔ repeats (~~~0) ws ≤ 2)) ∨
        (ws.length < 8 ∧ (selfTest instr a).1 = false ∧ ∃ b, a ≤ b ∧
          (selfTest instr a).2 = b + rdrandLimit ∧
          ∀ j < rdrandLimit, rdrandStep instr (b + j) = none)) := by
  obtain ⟨hwords, _, hcases⟩ := drawMany_cases (rdrandStep instr) rdrandLimit 8 a
  have hloop := selfTestLoop_eq instr 8 (~~~0) 0 a
  refine ⟨(drawMany (rdrandStep instr) rdrandLimit 8 a).1, ?_⟩
  rcases hcases with ⟨hall, hlength, _⟩ | ⟨hnot, hlength, b, hb, hend, hfail⟩
  · rw [if_pos hall, Nat.zero_add] at hloop
    simp only [selfTest, hloop, decide_eq_true_eq]
    exact ⟨hwords, Or.inl ⟨hlength, trivial⟩⟩
  · rw [hnot] at hloop
    simp only [Bool.false_eq_true, if_false] at hloop
    simp only [selfTest, hloop]
    exact ⟨hwords, Or.inr ⟨hlength, trivial, b, hb, hend, hfail⟩⟩

theorem repeats_replicate (v : UInt64) (ws : List UInt64) (hws : ∀ w ∈ ws, w = v) :
    repeats v ws = ws.length := by
  induction ws with
  | nil => rfl
  | cons w ws ih =>
    have hw := hws w List.mem_cons_self
    subst hw
    rw [repeats, if_pos rfl, ih (fun u hu => hws u (List.mem_cons_of_mem w hu)), List.length_cons]
    omega

/-- **A processor that repeats itself is not good.**  If the instruction never delivers more
    than one value, it is not used, whatever `cpuid` says. -/
theorem isRdrandGood_stuck (cpuid : Cpuid) {v : UInt64}
    (hstuck : ∀ i w, rdrandStep instr i = some w → w = v) (a : Nat) :
    (isRdrandGood cpuid instr a).1 = false := by
  unfold isRdrandGood
  split
  · rfl
  · split
    · rfl
    · split
      · rfl
      · rcases selfTest_spec instr a with ⟨ws, hws, ⟨hlength, hpass⟩ | ⟨_, hfalse, _⟩⟩
        · have hall : ∀ w ∈ ws, w = v := by
            intro w hw
            rw [hws] at hw
            rcases List.mem_filterMap.mp hw with ⟨i, _, hi⟩
            exact hstuck i w hi
          -- all words but the first are the word before
          rw [← Bool.not_eq_true, hpass]
          cases ws with
          | nil => simp at hlength
          | cons w ws =>
            have hw := hall w List.mem_cons_self
            have hrest := repeats_replicate v ws (fun u hu => hall u (List.mem_cons_of_mem w hu))
            rw [List.length_cons] at hlength
            rw [repeats, hw, hrest]
            omega
        · exact hfalse

end SelfTest

end DevenvTemplate.HardwareWords
