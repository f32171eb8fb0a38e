import DevenvTemplate.ChunkedBackends
import DevenvTemplate.HardwareWords
import DevenvTemplate.Lazy

/-!
# Backends that start up

RDRAND is tested before it is used, VxWorks waits until its generator is secure, and on UEFI
a protocol has to be found.  Each backend keeps the outcome in a variable that any call may
initialise, at the same time as others.
-/

namespace DevenvTemplate.Startup

open AtomicCell LabelledRuns RacyInit ByteMemory Getrandom

/-! ### `RDRAND_GOOD` -/

section Rdrand

open HardwareWords

/-- `RDRAND_GOOD`; a run of its initialisation is known by the first attempt of the self test. -/
def rdrandGood (w : Nat) (cpuid : Cpuid) (instr : Nat → Nat × UInt64) :
    RacyInit.Lazy (BitVec w) Nat Bool :=
  (Lazy.lazyBool w).comap (fun a => (isRdrandGood cpuid instr a).1) id

variable {w : Nat} {Thread : Type} [DecidableEq Thread] {cpuid : Cpuid}
  {instr : Nat → Nat × UInt64} {s₀ s : State Thread (BitVec w) Nat Bool}
  {labels : List (Label Thread (BitVec w) Nat)}

/-- What a call goes by is the outcome of some self test. -/
theorem rdrandGood_done (hw : 1 < w) (hs : Initial (rdrandGood w cpuid instr) s₀)
    (hrun : Run (Step (rdrandGood w cpuid instr)) s₀ labels s) {t : Thread} {good : Bool}
    (hpc : (s.caller t).pc = .done good) :
    ∃ a, Ran labels a ∧ good = (isRdrandGood cpuid instr a).1 := by
  rcases (sound_run hs hrun).done t good hpc with ⟨a, hmem, hgood, _⟩ | ⟨a, v, hran, hv, _, hgood, _⟩
  · refine ⟨a, ⟨t, hmem⟩, ?_⟩
    exact hgood.trans (Lazy.usizeFrom_ne_zero hw _)
  · refine ⟨a, hran, ?_⟩
    have hpublish : Lazy.usizeFrom w (isRdrandGood cpuid instr a).1 = v := Option.some.inj hv
    rw [← Lazy.usizeFrom_ne_zero hw (isRdrandGood cpuid instr a).1, hpublish]
    exact hgood

/-- **A processor that repeats itself is not used.**  Whichever thread tests it, and whatever
    it finds of the tests of others, no call draws a word from it. -/
theorem stuck_rdrand_unused (hw : 1 < w) {v : UInt64}
    (hstuck : ∀ i u, rdrandStep instr i = some u → u = v)
    (hs : Initial (rdrandGood w cpuid instr) s₀)
    (hrun : Run (Step (rdrandGood w cpuid instr)) s₀ labels s) {t : Thread} {good : Bool}
    (hpc : (s.caller t).pc = .done good) (dest : Slice) (m : Getrandom.State) :
    rdrandFillInner good instr dest m = (.error noRdrand, m) := by
  obtain ⟨a, _, hgood⟩ := rdrandGood_done hw hs hrun hpc
  rw [isRdrandGood_stuck instr cpuid hstuck a] at hgood
  subst hgood
  rfl

/-- A Zen processor whose instruction returns ones only. -/
def allOnes : RacyInit.Lazy (BitVec 64) Nat Bool :=
  rdrandGood 64 ⟨1, authenticAMD, 0x800F00, 0x40000000⟩ fun _ => (1, 0xFFFFFFFFFFFFFFFF)

theorem stuck_rdrand_unused_all_ones : ∃ labels s good, Run (Step allOnes) (Lazy.fresh allOnes) labels s ∧
    (s.caller ()).pc = .done good ∧ ∀ dest m,
      rdrandFillInner good (fun _ => (1, 0xFFFFFFFFFFFFFFFF)) dest m = (.error noRdrand, m) := by
  obtain ⟨labels, s, hrun, hpc, _⟩ :=
    exists_alone (Lazy.fresh_initial allOnes) () (o := 0) rfl
  have hstuck : ∀ i u, rdrandStep (fun _ => (1, 0xFFFFFFFFFFFFFFFF)) i = some u →
      u = 0xFFFFFFFFFFFFFFFF := by
    intro i u hu
    simp only [rdrandStep, if_true, Option.some.injEq] at hu
    exact hu.symm
  exact ⟨labels, s, _, hrun, hpc,
    stuck_rdrand_unused (by decide) hstuck (Lazy.fresh_initial allOnes) hrun hpc⟩

end Rdrand

/-! ### VxWorks -/

section VxWorks

open Chunked

/-- What a turn of the loop of `fill_inner` comes to. -/
inductive Turn where
  | ready
  | again
  | failed
deriving DecidableEq

/-- `RNG_INIT`; a run of its initialisation is known by what `randSecure` returned.  After it
    the loop looks at the variable again. -/
def rngInit : RacyInit.Lazy Bool Int Turn where
  empty := false
  loadOrder := .relaxed
  storeOrder := .relaxed
  hit _ := .ready
  publish ret := if 0 < ret then some true else none
  result ret := if ret < 0 then .failed else .again

/-- `VXWORKS_RAND_SECURE` -/
def vxworksRandSecure : Error := .newInternal 10

/-- `fill_inner` after a turn of its loop; `none` when the loop goes on. -/
def vxworksFillInner (host : Host vxworks) (turn : Turn) (dest : Slice) (m : Getrandom.State) :
    Option (Except Error Unit × Getrandom.State) :=
  match turn with
  | .ready => some (fillInner host dest m)
  | .again => none
  | .failed => some (.error vxworksRandSecure, m)

variable {Thread : Type} [DecidableEq Thread] {s₀ s : State Thread Bool Int Turn}
  {labels : List (Label Thread Bool Int)}

/-- **Only secure bytes.**  A call asks for bytes only after some thread has seen `randSecure`
    return more than zero, and it fails before that only if its own `randSecure` failed; and
    no thread stores the outcome twice. -/
theorem vxworks_secure (hs : Initial rngInit s₀) (hrun : Run (Step rngInit) s₀ labels s)
    (t : Thread) :
    (∀ (host : Host vxworks) turn dest m result, (s.caller t).pc = .done turn →
      vxworksFillInner host turn dest m = some result →
      ((∃ ret, 0 < ret ∧ Ran labels ret) ∧ result = fillInner host dest m) ∨
        ((∃ ret, ret < 0 ∧ (t, .initialised ret) ∈ labels) ∧
          result = (.error vxworksRandSecure, m))) ∧
      labels.countP (publishes rngInit t) ≤ 1 := by
  have hpublish (ret : Int) (v : Bool) (h : rngInit.publish ret = some v) : 0 < ret ∧ v = true := by
    by_cases hret : 0 < ret
    · exact ⟨hret, (Option.some.inj ((if_pos hret).symm.trans h)).symm⟩
    · rw [show rngInit.publish ret = none from if_neg hret] at h
      simp at h
  refine ⟨?_, published_once ?_ hs hrun t⟩
  · intro host turn dest m result hpc hresult
    rcases (sound_run hs hrun).done t turn hpc with
      ⟨ret, hmem, hturn, _⟩ | ⟨ret, v, hran, hv, _, hturn, _⟩
    · by_cases hret : ret < 0
      · have hfailed : turn = .failed := hturn.trans (if_pos hret)
        subst hfailed
        exact Or.inr ⟨⟨ret, hret, hmem⟩, (Option.some.inj hresult).symm⟩
      · have hagain : turn = .again := hturn.trans (if_neg hret)
        subst hagain
        simp [vxworksFillInner] at hresult
    · have hready : turn = .ready := hturn
      subst hready
      exact Or.inl ⟨⟨ret, (hpublish ret v hv).1, hran⟩, (Option.some.inj hresult).symm⟩
  · intro ret heq
    exact absurd (hpublish ret _ heq).2 (by decide)

/-- A generator that fills its chunks. -/
def filling : Host vxworks where
  call _ chunk := ⟨0, UtilLibc.eintr, List.replicate chunk.len 42⟩
  in_buffer i chunk := by simp
  fills i chunk := by simp

theorem vxworks_secure_filling : ∃ (labels : List (Label Unit Bool Int)) (ret : Int),
    0 < ret ∧ Ran labels ret ∧ labels.countP (publishes rngInit ()) ≤ 1 := by
  obtain ⟨labels, s, hrun, hpc⟩ := exists_hit (Lazy.fresh_initial rngInit) ()
    (show rngInit.publish 1 = some true from rfl) (by decide)
  obtain ⟨hfills, hcount⟩ := vxworks_secure (Lazy.fresh_initial _) hrun ()
  rcases hfills filling .ready ⟨0, 8⟩ ⟨⟨fun _ => none, []⟩, 0⟩ _ hpc rfl with
    ⟨⟨ret, hret, hran⟩, _⟩ | ⟨_, hresult⟩
  · exact ⟨labels, ret, hret, hran, hcount⟩
  · exact absurd (congrArg Prod.fst hresult) (by decide)

end VxWorks

/-! ### UEFI -/

section Uefi

variable {w : Nat}

/-- An error code, which is a `usize` here.  Those of the firmware have the highest bit set. -/
structure EfiError (w : Nat) where
  code : BitVec w
deriving DecidableEq

namespace EfiError

def newInternal (n : UInt16) : EfiError w := ⟨BitVec.ofNat w (0x10000 + n.toNat)⟩

def unexpected : EfiError w := newInternal 2
def bootServicesUnavailable : EfiError w := newInternal 10
def noRngHandle : EfiError w := newInternal 11

def fromUefiCode (code : BitVec w) : EfiError w := if code.msb then ⟨code⟩ else unexpected

def rawOsError (err : EfiError w) : Option (BitVec w) := if err.code.msb then some err.code else none

theorem rawOsError_fromUefiCode {code : BitVec w} (h : code.msb = true) :
    (fromUefiCode code).rawOsError = some code := by
  simp [fromUefiCode, rawOsError, h]

/-- The errors of the crate are no codes of the firmware. -/
theorem rawOsError_newInternal (hw : 32 ≤ w) (n : UInt16) :
    (newInternal n : EfiError w).rawOsError = none := by
  have hn := n.toNat_lt
  have hpow : 2 ^ 31 ≤ 2 ^ (w - 1) := Nat.pow_le_pow_right (by decide) (by omega)
  have hsmall : 0x10000 + n.toNat < 2 ^ (w - 1) := by omega
  have hmsb : (BitVec.ofNat w (0x10000 + n.toNat)).msb = false := by
    rw [BitVec.msb_eq_false_iff_two_mul_lt, BitVec.toNat_ofNat]
    have htwo : 2 * 2 ^ (w - 1) = 2 ^ w := by
      rw [← Nat.pow_succ']
      congr 1
      omega
    have := Nat.mod_le (0x10000 + n.toNat) (2 ^ w)
    omega
  simp [newInternal, rawOsError, hmsb]

end EfiError

/-- What comes of one handle: the status of `open_protocol`, the pointer that it wrote, and the
    status of `get_rng` when the protocol is tried for eight bytes. -/
structure Attempt (w : Nat) where
  opened : BitVec w
  protocol : BitVec w
  tried : BitVec w

/-- What a run of `init` meets: the boot services, the status and the size in bytes that
    `locate_handle` returns, and the handles of its array. -/
structure Firmware (w : Nat) where
  bootServices : Bool
  located : BitVec w
  bufSize : Nat
  handles : List (Attempt w)
  length : handles.length = 16

/-- The loop over the handles. -/
def search : List (Attempt w) → Except (EfiError w) (BitVec w)
  | [] => .error .noRngHandle
  | handle :: handles =>
    if handle.opened.msb then search handles
    else if handle.protocol = 0#w then .error .unexpected
    else if handle.tried.msb then search handles
    else .ok handle.protocol

/-- `init` of `efi_rng.rs`; `HANDLE_SIZE` is the size of a pointer. -/
def init (firmware : Firmware w) : Except (EfiError w) (BitVec w) :=
  if !firmware.bootServices then .error .bootServicesUnavailable
  else if firmware.located.msb then .error (.fromUefiCode firmware.located)
  else
    let handlesLen := firmware.bufSize / (w / 8)
    if handlesLen ≤ firmware.handles.length then search (firmware.handles.take handlesLen)
    else .error .unexpected

/-- `RNG_PROTOCOL` -/
def rngProtocol (w : Nat) :
    RacyInit.Lazy (BitVec w) (Firmware w) (Except (EfiError w) (BitVec w)) where
  empty := 0#w
  loadOrder := .relaxed
  storeOrder := .relaxed
  hit protocol := .ok protocol
  publish firmware := (init firmware).toOption
  result firmware := init firmware

/-- The handle is left aside. -/
def Attempt.Skipped (handle : Attempt w) : Prop :=
  handle.opened.msb = true ∨ (handle.protocol ≠ 0#w ∧ handle.tried.msb = true)

/-- The protocol is that of the first handle that could be opened and delivered. -/
def Firmware.Offers (firmware : Firmware w) (protocol : BitVec w) : Prop :=
  ∃ before handle after, firmware.handles = before ++ handle :: after ∧
    (∀ other ∈ before, other.Skipped) ∧ handle.opened.msb = false ∧ handle.tried.msb = false ∧
    handle.protocol = protocol ∧ protocol ≠ 0#w

theorem search_ok {handles : List (Attempt w)} {protocol : BitVec w}
    (h : search handles = .ok protocol) : ∃ before handle after,
      handles = before ++ handle :: after ∧ (∀ other ∈ before, other.Skipped) ∧
        handle.opened.msb = false ∧ handle.tried.msb = false ∧ handle.protocol = protocol ∧
        protocol ≠ 0#w := by
  induction handles with
  | nil => simp [search] at h
  | cons handle handles ih =>
    have hrest (hskipped : handle.Skipped) (h : search handles = .ok protocol) :
        ∃ before handle' after, handle :: handles = before ++ handle' :: after ∧
          (∀ other ∈ before, other.Skipped) ∧ handle'.opened.msb = false ∧
          handle'.tried.msb = false ∧ handle'.protocol = protocol ∧ protocol ≠ 0#w := by
      obtain ⟨before, handle', after, heq, hbefore, hfound⟩ := ih h
      refine ⟨handle :: before, handle', after, by rw [heq, List.cons_append], ?_, hfound⟩
      intro other hother
      rcases List.mem_cons.mp hother with rfl | hother
      · exact hskipped
      · exact hbefore other hother
    rw [search] at h
    split at h
    · rename_i hopened
      exact hrest (Or.inl hopened) h
    · rename_i hopened
      split at h
      · simp at h
      · rename_i hprotocol
        split at h
        · rename_i htried
          exact hrest (Or.inr ⟨hprotocol, htried⟩) h
        · rename_i htried
          simp only [Except.ok.injEq] at h
          exact ⟨[], handle, handles, rfl, nofun, by simpa using hopened, by simpa using htried, h,
            h ▸ hprotocol⟩

theorem init_ok {firmware : Firmware w} {protocol : BitVec w} (h : init firmware = .ok protocol) :
    firmware.bootServices = true ∧ firmware.Offers protocol := by
  unfold init at h
  split at h
  · simp at h
  · rename_i hservices
    split at h
    · simp at h
    · simp only at h
      split at h
      · obtain ⟨before, handle, after, heq, hfound⟩ := search_ok h
        refine ⟨by simpa using hservices, before, handle,
          after ++ firmware.handles.drop (firmware.bufSize / (w / 8)), ?_, hfound⟩
        rw [← List.cons_append, ← List.append_assoc, ← heq, List.take_append_drop]
      · simp at h

theorem search_error {handles : List (Attempt w)} {err : EfiError w}
    (h : search handles = .error err) : err = .noRngHandle ∨ err = .unexpected := by
  induction handles with
  | nil =>
    simp only [search, Except.error.injEq] at h
    exact Or.inl h.symm
  | cons handle handles ih =>
    rw [search] at h
    split at h
    · exact ih h
    · split at h
      · simp only [Except.error.injEq] at h
        exact Or.inr h.symm
      · split at h
        · exact ih h
        · simp at h

/-- The error of `init` names the status of the firmware, or it is an error of the crate that
    no status looks like. -/
theorem init_error (hw : 32 ≤ w) {firmware : Firmware w} {err : EfiError w}
    (h : init firmware = .error err) :
    (firmware.located.msb = true ∧ err.rawOsError = some firmware.located) ∨
      (err.rawOsError = none ∧
        (err = .bootServicesUnavailable ∨ err = .noRngHandle ∨ err = .unexpected)) := by
  have hcrate (n : UInt16) : (EfiError.newInternal n : EfiError w).rawOsError = none :=
    EfiError.rawOsError_newInternal hw n
  unfold init at h
  split at h
  · simp only [Except.error.injEq] at h
    subst h
    exact Or.inr ⟨hcrate 10, Or.inl rfl⟩
  · split at h
    · rename_i hlocated
      simp only [Except.error.injEq] at h
      subst h
      exact Or.inl ⟨hlocated, EfiError.rawOsError_fromUefiCode hlocated⟩
    · simp only at h
      split at h
      · rcases search_error h with rfl | rfl
        · exact Or.inr ⟨hcrate 11, Or.inr (Or.inl rfl)⟩
        · exact Or.inr ⟨hcrate 2, Or.inr (Or.inr rfl)⟩
      · simp only [Except.error.injEq] at h
        subst h
        exact Or.inr ⟨hcrate 2, Or.inr (Or.inr rfl)⟩

/-- A protocol: the status of `get_rng` and the bytes that it writes, by the number of calls
    made before.  It stays in the buffer, and fills it unless it reports an error. -/
structure Protocol (w : Nat) where
  getRng : Nat → Slice → BitVec w × List UInt8
  in_buffer : ∀ i dest, (getRng i dest).2.length ≤ dest.len
  fills : ∀ i dest, (getRng i dest).1.msb = false → (getRng i dest).2.length = dest.len

/-- `fill_inner` of `efi_rng.rs`, once it has a protocol or none. -/
def efiFillInner (protocols : BitVec w → Protocol w) (found : Except (EfiError w) (BitVec w))
    (dest : Slice) (m : Getrandom.State) : Except (EfiError w) Unit × Getrandom.State :=
  match found with
  | .error err => (.error err, m)
  | .ok protocol =>
    let r := (protocols protocol).getRng m.calls dest
    let m' : Getrandom.State := ⟨m.memory.storeBytes dest.addr r.2, m.calls + 1⟩
    if r.1.msb then (.error (.fromUefiCode r.1), m') else (.ok (), m')

variable {Thread : Type} [DecidableEq Thread]
  {s₀ s : State Thread (BitVec w) (Firmware w) (Except (EfiError w) (BitVec w))}
  {labels : List (Label Thread (BitVec w) (Firmware w))}

/-- Firmware with a handle that cannot be opened before one that delivers. -/
def secondHandle : Firmware 64 where
  bootServices := true
  located := 0
  bufSize := 16
  handles := ⟨1#64 <<< 63, 0, 0⟩ :: ⟨0, 4096, 0⟩ :: List.replicate 14 ⟨0, 0, 0⟩
  length := rfl

/-- What UEFI fills is initialised. -/
theorem efiFillInner_initialises (protocols : BitVec w → Protocol w)
    (found : Except (EfiError w) (BitVec w)) (dest : Slice) (m : Getrandom.State)
    (h : (efiFillInner protocols found dest m).1 = .ok ()) :
    ∀ c ∈ (efiFillInner protocols found dest m).2.memory.load dest.addr dest.len, c.isSome := by
  cases found with
  | error err => simp [efiFillInner] at h
  | ok protocol =>
    cases hmsb : ((protocols protocol).getRng m.calls dest).1.msb with
    | true => simp [efiFillInner, hmsb] at h
    | false =>
      have hlength := (protocols protocol).fills m.calls dest hmsb
      intro c hc
      simp only [efiFillInner, hmsb, Bool.false_eq_true, if_false] at hc
      rw [← hlength, Memory.load_storeBytes] at hc
      obtain ⟨b, _, rfl⟩ := List.mem_map.mp hc
      rfl

end Uefi

end DevenvTemplate.Startup
