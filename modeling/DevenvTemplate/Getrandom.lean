import DevenvTemplate.ByteMemory

/-!
# The `getrandom` crate around its backends

`error.rs`, `util.rs` and `fill_uninit` of `lib.rs`.  A backend fills a buffer in the
memory of the program; its contract is to initialise the buffer whenever it
returns `Ok`.
-/

namespace DevenvTemplate.Getrandom

open ByteMemory

/-! ### Errors -/

abbrev I32 := { x : Int // -0x80000000 ≤ x ∧ x < 0x80000000 }

/-- `checked_neg`. -/
def checkedNeg (x : I32) : Option I32 :=
  if h : -0x80000000 < x.val then some ⟨-x.val, by omega⟩ else none

/-- An error code.  Those of the operating system are negative. -/
structure Error where
  code : I32
  ne_zero : code.val ≠ 0
deriving DecidableEq

namespace Error

def internalStart : Int := 0x10000
def customStart : Int := 0x20000

def newInternal (n : UInt16) : Error where
  code := ⟨internalStart + n.toNat, by
    have := n.toNat_lt
    unfold internalStart
    omega⟩
  ne_zero := by
    show internalStart + (n.toNat : Int) ≠ 0
    unfold internalStart
    omega

def newCustom (n : UInt16) : Error where
  code := ⟨customStart + n.toNat, by
    have := n.toNat_lt
    unfold customStart
    omega⟩
  ne_zero := by
    show customStart + (n.toNat : Int) ≠ 0
    unfold customStart
    omega

def unsupported : Error := newInternal 0
def errnoNotPositive : Error := newInternal 1
def unexpected : Error := newInternal 2

def fromNegErrorCode (code : I32) : Error :=
  if h : code.val < 0 then ⟨code, by omega⟩ else unexpected

/-- `raw_os_error`, for targets where `std` expects positive codes. -/
def rawOsError (e : Error) : Option I32 :=
  if 0 ≤ e.code.val then none else checkedNeg e.code

theorem rawOsError_newInternal (n : UInt16) : (newInternal n).rawOsError = none := by
  have hpos : 0 ≤ (newInternal n).code.val := by
    simp only [newInternal, internalStart]
    omega
  rw [rawOsError, if_pos hpos]

theorem rawOsError_newCustom (n : UInt16) : (newCustom n).rawOsError = none := by
  have hpos : 0 ≤ (newCustom n).code.val := by
    simp only [newCustom, customStart]
    omega
  rw [rawOsError, if_pos hpos]

/-- The crate's own errors are never the custom errors of a backend. -/
theorem newInternal_ne_newCustom (m n : UInt16) : newInternal m ≠ newCustom n := by
  intro heq
  have hcode := congrArg (fun e => e.code.val) heq
  simp only [newInternal, newCustom, internalStart, customStart] at hcode
  have := m.toNat_lt
  omega

end Error

/-! ### Words -/

/-- `truncate`; a value that does not fit would be a panic. -/
def truncate (val : UInt64) : Option UInt32 :=
  let masked := val &&& 0xFFFFFFFF
  if masked.toNat ≤ 0xFFFFFFFF then some masked.toUInt32 else none

/-- The mask leaves a value that fits, so no draw makes `truncate` panic. -/
theorem truncate_eq (val : UInt64) : truncate val = some val.toUInt32 := by
  have hmask : (val &&& 0xFFFFFFFF).toNat = val.toNat % 2 ^ 32 := by
    rw [UInt64.toNat_and]
    exact Nat.and_two_pow_sub_one_eq_mod val.toNat 32
  have hfits : (val &&& 0xFFFFFFFF).toNat ≤ 0xFFFFFFFF := by
    rw [hmask]
    exact Nat.le_of_lt_succ (Nat.mod_lt _ (by decide))
  rw [truncate, if_pos hfits]
  congr 1
  apply UInt32.toNat_inj.mp
  rw [UInt64.toNat_toUInt32, UInt64.toNat_toUInt32, hmask, Nat.mod_mod]

/-! ### Buffers -/

/-- The memory of the program and how often its host was called. -/
structure State where
  memory : Memory
  calls : Nat

/-- `slice_assume_init_mut`, which asks for bytes that are initialised. -/
def sliceAssumeInitMut (dest : Slice) (m : Memory) : Except Fault Slice :=
  if (m.load dest.addr dest.len).all Option.isSome then .ok dest else .error .uninitialised

/-- `fill_uninit` over the `fill_inner` of a backend. -/
def fillUninit (fillInner : Slice → State → Except Fault (Except Error Unit × State))
    (dest : Slice) (s : State) : Except Fault (Except Error Slice × State) := do
  let (result, s) ← (if dest.len ≠ 0 then fillInner dest s else pure (.ok (), s))
  match result with
  | .error e => pure (.error e, s)
  | .ok () =>
    let bytes ← sliceAssumeInitMut dest s.memory
    pure (.ok bytes, s)

/-- The contract of a backend: after `Ok`, every byte of the buffer is initialised. -/
def Initialises (dest : Slice) (result : Except Error Unit) (s' : State) : Prop :=
  result = .ok () → ∀ c ∈ s'.memory.load dest.addr dest.len, c.isSome

theorem fillUninit_empty
    (fillInner : Slice → State → Except Fault (Except Error Unit × State)) (addr : Nat)
    (s : State) : fillUninit fillInner ⟨addr, 0⟩ s = .ok (.ok ⟨addr, 0⟩, s) := rfl

/-- A backend that keeps the contract is passed on as it is: the buffer or its error. -/
theorem fillUninit_of_initialises
    {fillInner : Slice → State → Except Fault (Except Error Unit × State)} {dest : Slice}
    {s s' : State} {result : Except Error Unit} (hlen : dest.len ≠ 0)
    (hfill : fillInner dest s = .ok (result, s')) (hinit : Initialises dest result s') :
    fillUninit fillInner dest s = .ok (result.map fun _ => dest, s') := by
  unfold fillUninit
  rw [if_pos hlen, hfill, ok_bind]
  cases result with
  | error e => rfl
  | ok u =>
    have hall : (s'.memory.load dest.addr dest.len).all Option.isSome := by
      rw [List.all_eq_true]
      exact hinit rfl
    simp only [sliceAssumeInitMut, if_pos hall, ok_bind]
    rfl

end DevenvTemplate.Getrandom
