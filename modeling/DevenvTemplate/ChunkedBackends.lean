import DevenvTemplate.SliceChunks
import DevenvTemplate.SysFill

/-!
# Backends that work in chunks

`getentropy.rs`, `solaris.rs`, `wasm_js.rs`, `vxworks.rs` and `windows_legacy.rs` ask the
system for the buffer chunk by chunk, as it does not give more at once.  Each is the same
loop with a chunk size and a test of its own; the second variant of `wasm_js.rs` goes
through a buffer of the browser, and leaves the same bytes.
-/

namespace DevenvTemplate.Chunked

open ByteMemory Getrandom UtilLibc

/-! ### The loop -/

/-- How a backend cuts the buffer, and what it makes of the result of a call. -/
structure Backend where
  size : Nat
  size_pos : 0 < size
  check : Slice → SysResult → Except Error Unit

/-- The system, by the number of calls made before: it stays in the chunk, and fills it if
    the backend takes the call for a success. -/
structure Host (backend : Backend) where
  call : Nat → Slice → SysResult
  in_buffer : ∀ i chunk, (call i chunk).bytes.length ≤ chunk.len
  fills : ∀ i chunk, backend.check chunk (call i chunk) = .ok () →
    (call i chunk).bytes.length = chunk.len

/-- The state after the next call for a chunk. -/
def chunkCalled {backend : Backend} (host : Host backend) (chunk : Slice) (s : State) : State where
  memory := s.memory.storeBytes chunk.addr (host.call s.calls chunk).bytes
  calls := s.calls + 1

/-- The loop over the chunks. -/
def fillChunks {backend : Backend} (host : Host backend) :
    List Slice → State → Except Error Unit × State
  | [], s => (.ok (), s)
  | chunk :: chunks, s =>
    match backend.check chunk (host.call s.calls chunk) with
    | .error err => (.error err, chunkCalled host chunk s)
    | .ok () => fillChunks host chunks (chunkCalled host chunk s)

def fillInner {backend : Backend} (host : Host backend) (dest : Slice) (s : State) :
    Except Error Unit × State :=
  fillChunks host (chunksMut backend.size dest) s

/-! ### The backends -/

def i32Max : Nat := 0x7fffffff

/-- `getentropy.rs` -/
def getentropy : Backend where
  size := 256
  size_pos := by decide
  check _ r := if r.res ≠ 0 then .error (lastOsError r.errno) else .ok ()

/-- `solaris.rs`; `usize::try_from` fails on negative results. -/
def solaris : Backend where
  size := 1024
  size_pos := by decide
  check chunk r :=
    if r.res < 0 then .error .unexpected
    else if r.res.toNat = chunk.len then .ok ()
    else if r.res.toNat = 0 then .error (lastOsError r.errno)
    else .error .unexpected

def webCrypto : Error := .newInternal 10

/-- `wasm_js.rs`; an exception is a result other than zero. -/
def wasmJs : Backend where
  size := 65536
  size_pos := by decide
  check _ r := if r.res ≠ 0 then .error webCrypto else .ok ()

/-- `vxworks.rs` after its initialisation. -/
def vxworks : Backend where
  size := i32Max
  size_pos := by decide
  check _ r := if r.res ≠ 0 then .error (lastOsError r.errno) else .ok ()

def windowsRtlGenRandom : Error := .newInternal 10

/-- `windows_legacy.rs`; `TRUE` is one. -/
def windowsLegacy : Backend where
  size := i32Max
  size_pos := by decide
  check _ r := if r.res ≠ 1 then .error windowsRtlGenRandom else .ok ()

/-! ### What the loop does -/

section Loop

variable {backend : Backend} (host : Host backend)

/-- What calls from the `i`-th on deliver for some chunks. -/
def pieces (i : Nat) : List Slice → List (Slice × List UInt8)
  | [] => []
  | chunk :: chunks => (chunk, (host.call i chunk).bytes) :: pieces (i + 1) chunks

/-- The calls from the `i`-th on for some chunks all succeed. -/
def AllOk (i : Nat) : List Slice → Prop
  | [] => True
  | chunk :: chunks => backend.check chunk (host.call i chunk) = .ok () ∧ AllOk (i + 1) chunks

theorem pieces_fst (i : Nat) (chunks : List Slice) : (pieces host i chunks).map Prod.fst = chunks := by
  induction chunks generalizing i with
  | nil => rfl
  | cons chunk chunks ih => simp [pieces, ih]

theorem pieces_full {i : Nat} {chunks : List Slice} (h : AllOk host i chunks) :
    ∀ p ∈ pieces host i chunks, p.2.length = p.1.len := by
  induction chunks generalizing i with
  | nil => simp [pieces]
  | cons chunk chunks ih =>
    intro p hp
    rcases List.mem_cons.mp hp with rfl | hp
    · exact host.fills i chunk h.1
    · exact ih h.2 p hp

/-- The loop goes on to the first call that fails. -/
theorem fillChunks_cases (chunks : List Slice) (s : State) :
    (AllOk host s.calls chunks ∧ fillChunks host chunks s =
      (.ok (), ⟨s.memory.storeChunks (pieces host s.calls chunks), s.calls + chunks.length⟩)) ∨
    ∃ before chunk after err, chunks = before ++ chunk :: after ∧ AllOk host s.calls before ∧
      backend.check chunk (host.call (s.calls + before.length) chunk) = .error err ∧
      fillChunks host chunks s =
        (.error err, chunkCalled host chunk
          ⟨s.memory.storeChunks (pieces host s.calls before), s.calls + before.length⟩) := by
  induction chunks generalizing s with
  | nil => exact Or.inl ⟨trivial, rfl⟩
  | cons chunk chunks ih =>
    cases hcheck : backend.check chunk (host.call s.calls chunk) with
    | error err =>
      refine Or.inr ⟨[], chunk, chunks, err, rfl, trivial, hcheck, ?_⟩
      simp only [fillChunks, hcheck]
      rfl
    | ok u =>
      have hfill : fillChunks host (chunk :: chunks) s =
          fillChunks host chunks (chunkCalled host chunk s) := by
        simp only [fillChunks, hcheck]
      rw [hfill]
      rcases ih (chunkCalled host chunk s) with
        ⟨hall, heq⟩ | ⟨before, chunk', after, err, hchunks, hall, herr, heq⟩
      · refine Or.inl ⟨⟨hcheck, hall⟩, ?_⟩
        rw [heq, List.length_cons]
        simp only [chunkCalled, pieces, Memory.storeChunks, Prod.mk.injEq, State.mk.injEq, true_and]
        omega
      · have hcalls : (chunkCalled host chunk s).calls + before.length =
            s.calls + (chunk :: before).length := by
          simp only [chunkCalled, List.length_cons]
          omega
        rw [hcalls] at herr heq
        exact Or.inr ⟨chunk :: before, chunk', after, err, congrArg _ hchunks, ⟨hcheck, hall⟩,
          herr, heq⟩

/-! ### The contract -/

/-- **All of the buffer, or the first failure.**  Every chunk asked for is neither empty nor
    too long.  Either all calls succeed, and the buffer holds what they delivered, in order;
    or the error is that of the first call that fails, the buffer is filled up to its chunk,
    and nothing is asked for after it. -/
theorem fillInner_spec (dest : Slice) (s : State) :
    (∀ chunk ∈ chunksMut backend.size dest, 0 < chunk.len ∧ chunk.len ≤ backend.size) ∧
    ((∃ bytes, bytes = (pieces host s.calls (chunksMut backend.size dest)).flatMap Prod.snd ∧
        bytes.length = dest.len ∧ AllOk host s.calls (chunksMut backend.size dest) ∧
        fillInner host dest s = (.ok (), ⟨s.memory.storeBytes dest.addr bytes,
          s.calls + (chunksMut backend.size dest).length⟩)) ∨
      ∃ before chunk after err bytes,
        chunksMut backend.size dest = before ++ chunk :: after ∧
        AllOk host s.calls before ∧
        backend.check chunk (host.call (s.calls + before.length) chunk) = .error err ∧
        bytes = (pieces host s.calls before).flatMap Prod.snd ∧
        dest.addr + bytes.length = chunk.addr ∧
        fillInner host dest s = (.error err, chunkCalled host chunk
          ⟨s.memory.storeBytes dest.addr bytes, s.calls + before.length⟩)) := by
  have htiles := tiles_chunksMut backend.size_pos dest
  refine ⟨fun chunk hmem => len_of_mem_chunksMut backend.size_pos hmem, ?_⟩
  rcases fillChunks_cases host (chunksMut backend.size dest) s with
    ⟨hall, heq⟩ | ⟨before, chunk, after, err, hchunks, hall, herr, heq⟩
  · rw [← pieces_fst host s.calls (chunksMut backend.size dest)] at htiles
    obtain ⟨hstore, hlength⟩ := storeChunks_eq s.memory htiles (pieces_full host hall)
    refine Or.inl ⟨_, rfl, hlength, hall, ?_⟩
    rw [fillInner, heq, hstore]
  · rw [hchunks] at htiles
    rcases tiles_append htiles with ⟨n, _, hbefore, hafter⟩
    rw [← pieces_fst host s.calls before] at hbefore
    obtain ⟨hstore, hlength⟩ := storeChunks_eq s.memory hbefore (pieces_full host hall)
    refine Or.inr ⟨before, chunk, after, err, _, hchunks, hall, herr, rfl, ?_, ?_⟩
    · rw [hlength]
      generalize dest.len - n = rest at hafter
      cases hafter with
      | cons haddr => exact haddr.symm
    · rw [fillInner, heq, hstore]

/-- So `fill_uninit` passes its result on. -/
theorem fillUninit_eq {dest : Slice} (hlen : dest.len ≠ 0) (s : State) :
    fillUninit (fun dest s => .ok (fillInner host dest s)) dest s =
      .ok ((fillInner host dest s).1.map fun _ => dest, (fillInner host dest s).2) := by
  apply fillUninit_of_initialises hlen rfl
  intro hok c hc
  rcases (fillInner_spec host dest s).2 with
    ⟨bytes, _, hlength, _, heq⟩ | ⟨_, _, _, err, _, _, _, _, _, _, heq⟩
  · rw [heq, ← hlength, Memory.load_storeBytes] at hc
    rcases List.mem_map.mp hc with ⟨b, _, rfl⟩
    rfl
  · rw [heq] at hok
    simp at hok

end Loop

/-! ### Through a buffer of the browser -/

/-- The variant of `wasm_js.rs` for memory that is shared between threads: each chunk is
    filled in a `Uint8Array`, which is as long as the first chunk, and copied from there. -/
def fillThrough (host : Host wasmJs) :
    List UInt8 → List Slice → State → Except Error Unit × State
  | _, [], s => (.ok (), s)
  | buf, chunk :: chunks, s =>
    -- `get_random_values` writes to the start of the array, which `subarray` is a view of
    let r := host.call s.calls chunk
    let buf := r.bytes ++ buf.drop r.bytes.length
    match wasmJs.check chunk r with
    | .error err => (.error err, { s with calls := s.calls + 1 })
    | .ok () =>
      fillThrough host buf chunks
        ⟨s.memory.storeBytes chunk.addr (buf.take chunk.len), s.calls + 1⟩

/-- `chunks_mut` panics when the size is zero. -/
def fillInnerAtomics (host : Host wasmJs) (dest : Slice) (s : State) :
    Option (Except Error Unit × State) :=
  let bufLen := min dest.len wasmJs.size
  if bufLen = 0 then none
  else some (fillThrough host (List.replicate bufLen 0) (chunksMut bufLen dest) s)

/-- A chunk that is filled in the array is the same one in memory. -/
theorem take_array {host : Host wasmJs} {i : Nat} {chunk : Slice} (buf : List UInt8)
    (hok : wasmJs.check chunk (host.call i chunk) = .ok ()) :
    ((host.call i chunk).bytes ++ buf.drop (host.call i chunk).bytes.length).take chunk.len =
      (host.call i chunk).bytes :=
  List.take_left' (host.fills i chunk hok)

theorem fillThrough_eq (host : Host wasmJs) (buf : List UInt8) (chunks : List Slice) (s : State) :
    (fillThrough host buf chunks s).1 = (fillChunks host chunks s).1 ∧
      (fillThrough host buf chunks s).2.calls = (fillChunks host chunks s).2.calls ∧
      ((fillChunks host chunks s).1 = .ok () →
        fillThrough host buf chunks s = fillChunks host chunks s) := by
  induction chunks generalizing buf s with
  | nil => exact ⟨rfl, rfl, fun _ => rfl⟩
  | cons chunk chunks ih =>
    cases hcheck : wasmJs.check chunk (host.call s.calls chunk) with
    | error err =>
      simp [fillThrough, fillChunks, hcheck, chunkCalled]
    | ok u =>
      simp only [fillThrough, fillChunks, hcheck, take_array buf hcheck]
      exact ih _ _

/-- A browser that works. -/
def sevens : Host wasmJs where
  call _ chunk := ⟨0, eintr, List.replicate chunk.len 7⟩
  in_buffer i chunk := by simp
  fills i chunk := by simp

end DevenvTemplate.Chunked
