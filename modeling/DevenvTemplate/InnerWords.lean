import DevenvTemplate.LittleEndian
import DevenvTemplate.WasiP3

/-!
# `u32` and `u64`

The `inner_u32` and `inner_u64` of `util.rs` fill the bytes of a variable.  For a backend
that keeps its contract they return the number that the bytes make up.  The WASI backends
have versions of their own that ask the host for the number, which is the same one.
-/

namespace DevenvTemplate.InnerWords

open ByteMemory Getrandom

/-! ### The default implementation -/

/-- `assume_init` of the variable, read as a number. -/
def assumeInit (addr len : Nat) (m : Memory) : Except Fault Nat :=
  if (m.load addr len).all Option.isSome then .ok (fromLe ((m.load addr len).filterMap id))
  else .error .uninitialised

section Default

variable (fillInner : Slice → State → Except Fault (Except Error Unit × State))

/-- The implementation for `len` bytes, over `fill_uninit`; the variable is at `addr`. -/
def inner (len addr : Nat) (s : State) : Except Fault (Except Error Nat × State) := do
  let (result, s) ← fillUninit fillInner ⟨addr, len⟩ s
  match result with
  | .error err => pure (.error err, s)
  | .ok _ =>
    let val ← assumeInit addr len s.memory
    pure (.ok val, s)

/-- `inner_u32` -/
def innerU32 (addr : Nat) (s : State) : Except Fault (Except Error UInt32 × State) := do
  let (result, s) ← inner fillInner 4 addr s
  pure (result.map UInt32.ofNat, s)

/-- `inner_u64` -/
def innerU64 (addr : Nat) (s : State) : Except Fault (Except Error UInt64 × State) := do
  let (result, s) ← inner fillInner 8 addr s
  pure (result.map UInt64.ofNat, s)

end Default

theorem assumeInit_eq {addr : Nat} {m : Memory} {bytes : List UInt8}
    (h : m.load addr bytes.length = bytes.map some) :
    assumeInit addr bytes.length m = .ok (fromLe bytes) := by
  rw [assumeInit, h, if_pos]
  · simp
  · simp

/-- What is initialised is some bytes. -/
theorem exists_bytes {addr len : Nat} {m : Memory} (h : ∀ c ∈ m.load addr len, c.isSome) :
    ∃ bytes : List UInt8, bytes.length = len ∧ m.load addr len = bytes.map some := by
  have hsome : (m.load addr len).map (fun c => some (c.getD 0)) = m.load addr len := by
    conv_rhs => rw [← List.map_id (m.load addr len)]
    apply List.map_congr_left
    intro c hc
    rcases Option.isSome_iff_exists.mp (h c hc) with ⟨b, rfl⟩
    rfl
  refine ⟨(m.load addr len).map fun c => c.getD 0, by simp [Memory.load], ?_⟩
  rw [List.map_map]
  exact hsome.symm

/-! ### Over any backend -/

section Contract

variable {fillInner : Slice → State → Except Fault (Except Error Unit × State)} {addr : Nat}
  {s s' : State}

theorem inner_of_error {len : Nat} {err : Error} (hlen : len ≠ 0)
    (hfill : fillInner ⟨addr, len⟩ s = .ok (.error err, s')) :
    inner fillInner len addr s = .ok (.error err, s') := by
  have hinit : Initialises ⟨addr, len⟩ (.error err) s' := by
    intro hok
    simp at hok
  have hfilled : fillUninit fillInner ⟨addr, len⟩ s = .ok (.error err, s') :=
    fillUninit_of_initialises hlen hfill hinit
  rw [inner, hfilled]
  rfl

theorem inner_of_ok {bytes : List UInt8} (hlen : bytes.length ≠ 0)
    (hfill : fillInner ⟨addr, bytes.length⟩ s = .ok (.ok (), s'))
    (hbytes : s'.memory.load addr bytes.length = bytes.map some) :
    inner fillInner bytes.length addr s = .ok (.ok (fromLe bytes), s') := by
  have hinit : Initialises ⟨addr, bytes.length⟩ (.ok ()) s' := by
    intro _ c hc
    rw [hbytes] at hc
    rcases List.mem_map.mp hc with ⟨b, _, rfl⟩
    rfl
  have hfilled : fillUninit fillInner ⟨addr, bytes.length⟩ s =
      .ok (.ok ⟨addr, bytes.length⟩, s') := fillUninit_of_initialises hlen hfill hinit
  simp only [inner, hfilled, ok_bind, assumeInit_eq hbytes]
  rfl

end Contract

/-! ### Over WASI -/

section Wasi

variable (w : Nat → UInt64) {addr : Nat} (s : State)

/-- An aligned variable lies in one word. -/
theorem pieces_four (haddr : addr % 4 = 0) : WasiP3.pieces addr 4 = [4] := by
  by_cases hword : addr % 8 = 0
  · simp [WasiP3.pieces, WasiP3.headLength, WasiP3.chunkCount, WasiP3.tailLength,
      WasiP3.alignOffset, WasiP3.partLengths, hword]
  · have hhalf : addr % 8 = 4 := by omega
    simp [WasiP3.pieces, WasiP3.headLength, WasiP3.chunkCount, WasiP3.tailLength,
      WasiP3.alignOffset, WasiP3.partLengths, hhalf]

theorem pieces_eight (haddr : addr % 8 = 0) : WasiP3.pieces addr 8 = [8] := by
  simp [WasiP3.pieces, WasiP3.headLength, WasiP3.chunkCount, WasiP3.tailLength,
    WasiP3.alignOffset, WasiP3.partLengths, haddr]

/-- The variable gets the lowest bytes of the next word of the host. -/
theorem inner_wasi {len : Nat} (hlen : 0 < len) (hle : len ≤ 8)
    (hpieces : WasiP3.pieces addr len = [len]) :
    inner (WasiP3.fillInner w) len addr s = .ok (.ok ((w s.calls).toNat % 256 ^ len),
      ⟨s.memory.storeBytes addr (toLe len (w s.calls).toNat), s.calls + 1⟩) := by
  have hfilled : WasiP3.filled w s [len] addr =
      ⟨s.memory.storeBytes addr (toLe len (w s.calls).toNat), s.calls + 1⟩ := by
    simp only [WasiP3.filled, cut, List.append_nil, take_leBytes_eq _ hle]
    rfl
  have hfill := WasiP3.fillInner_eq w addr len s
  rw [hpieces, hfilled] at hfill
  have hload := Memory.load_storeBytes s.memory addr (toLe len (w s.calls).toNat)
  have hlength : (toLe len (w s.calls).toNat).length = len := length_toLe len _
  have hfill' : WasiP3.fillInner w ⟨addr, (toLe len (w s.calls).toNat).length⟩ s = .ok (.ok (),
      ⟨s.memory.storeBytes addr (toLe len (w s.calls).toNat), s.calls + 1⟩) := by
    rw [hlength]
    exact hfill
  have hinner := inner_of_ok (by omega) hfill' hload
  rw [hlength, fromLe_toLe] at hinner
  exact hinner

/-- **The two ways to a number agree.**  For a variable that is aligned, the default
    implementation over the WASI backend draws the same word as the backend's own, and
    returns the same number. -/
theorem wasi_agrees (addr addr' : Nat) (haddr : addr % 4 = 0) (haddr' : addr' % 8 = 0) :
    (∃ v s₁ s₂, innerU32 (WasiP3.fillInner w) addr s = .ok (.ok v, s₁) ∧
      WasiP3.innerU32 w s = some (.ok v, s₂) ∧ s₁.calls = s₂.calls) ∧
    ∃ v s₁ s₂, innerU64 (WasiP3.fillInner w) addr' s = .ok (.ok v, s₁) ∧
      WasiP3.innerU64 w s = (.ok v, s₂) ∧ s₁.calls = s₂.calls := by
  have h32 := inner_wasi w s (by decide) (by decide) (pieces_four haddr)
  have h64 := inner_wasi w s (by decide) (by decide) (pieces_eight haddr')
  have hvalue32 : UInt32.ofNat ((w s.calls).toNat % 256 ^ 4) = (w s.calls).toUInt32 := by
    apply UInt32.toNat_inj.mp
    rw [UInt32.toNat_ofNat', UInt64.toNat_toUInt32]
    exact Nat.mod_mod _ _
  have hvalue64 : UInt64.ofNat ((w s.calls).toNat % 256 ^ 8) = w s.calls := by
    apply UInt64.toNat_inj.mp
    rw [UInt64.toNat_ofNat']
    exact (Nat.mod_mod _ _).trans (Nat.mod_eq_of_lt (w s.calls).toNat_lt)
  refine ⟨⟨_, ⟨s.memory.storeBytes addr (toLe 4 (w s.calls).toNat), s.calls + 1⟩, _, ?_,
    WasiP3.innerU32_eq w s, rfl⟩,
    ⟨w s.calls, ⟨s.memory.storeBytes addr' (toLe 8 (w s.calls).toNat), s.calls + 1⟩, _, ?_, rfl, rfl⟩⟩
  · rw [innerU32, h32, ← hvalue32]
    rfl
  · rw [innerU64, h64]
    show Except.ok (Except.ok (UInt64.ofNat ((w s.calls).toNat % 256 ^ 8)), _) = _
    rw [hvalue64]

theorem wasi_agrees_five : ∃ v s₁ s₂,
    innerU64 (WasiP3.fillInner fun _ => 5) 16 ⟨⟨fun _ => none, []⟩, 0⟩ = .ok (.ok v, s₁) ∧
      WasiP3.innerU64 (fun _ => 5) ⟨⟨fun _ => none, []⟩, 0⟩ = (.ok v, s₂) := by
  obtain ⟨_, v, s₁, s₂, heq, heq', _⟩ :=
    wasi_agrees (fun _ => 5) ⟨⟨fun _ => none, []⟩, 0⟩ 4 16 (by decide) (by decide)
  exact ⟨v, s₁, s₂, heq, heq'⟩

end Wasi

end DevenvTemplate.InnerWords
