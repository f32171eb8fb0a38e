import DevenvTemplate.Getrandom

/-!
# The WASI preview 3 backend of `getrandom`

`fillInner` of `wasi_p3.rs` fills a buffer from a host that returns words: some
bytes up to the first aligned address, whole words, and some bytes at the end.
The result is stated once for all three parts: the buffer is a stream of words
cut into pieces of at most eight bytes (`filled`), and each part of the code
is a step of it.
-/

namespace DevenvTemplate.WasiP3

open ByteMemory Getrandom

/-! ### The host and the buffer -/

/-- `get-random-u64` of the host, whose results are the stream `w`. -/
def getRandomU64 (w : Nat → UInt64) (s : State) : UInt64 × State :=
  (w s.calls, { s with calls := s.calls + 1 })

/-- `align_offset` of a byte pointer for words. -/
def alignOffset (addr : Nat) : Nat := (8 - addr % 8) % 8

/-- `align_to_mut::<MaybeUninit<u64>>`: bytes, words, bytes.  A buffer that ends before
    the first aligned address has no words; an empty slice points nowhere. -/
def alignToMut (dest : Slice) : Slice × Slice × Slice :=
  let offset := alignOffset dest.addr
  if dest.len < offset then
    (dest, ⟨8, 0⟩, ⟨1, 0⟩)
  else
    let rest := dest.len - offset
    (⟨dest.addr, offset⟩, ⟨dest.addr + offset, rest / 8⟩,
      ⟨dest.addr + offset + 8 * (rest / 8), rest % 8⟩)

/-! ### The backend -/

section Backend

variable (w : Nat → UInt64)

/-- One draw copied to a part of the buffer that is not made of whole words, if there
    is one: what the code does with `prefix` and then with `suffix`. -/
def fillPart (part : Slice) (s : State) : Except Fault State :=
  if part.len ≠ 0 then do
    let (val, s) := getRandomU64 w s
    let memory ← copyNonoverlapping (leBytes val) part.addr part.len s.memory
    pure { s with memory }
  else
    pure s

/-- `for dst in chunks`, over `count` words from `addr` on. -/
def writeChunks (addr : Nat) : Nat → State → Except Fault State
  | 0, s => pure s
  | count + 1, s => do
    let (val, s) := getRandomU64 w s
    let memory ← writeU64 addr val s.memory
    writeChunks (addr + 8) count { s with memory }

def fillInner (dest : Slice) (s : State) : Except Fault (Except Error Unit × State) := do
  let (before, chunks, after) := alignToMut dest
  let s ← fillPart w before s
  let s ← writeChunks w chunks.addr chunks.len s
  let s ← fillPart w after s
  pure (.ok (), s)

def innerU32 (s : State) : Option (Except Error UInt32 × State) :=
  let (val, s) := getRandomU64 w s
  (truncate val).map fun val => (.ok val, s)

def innerU64 (s : State) : Except Error UInt64 × State :=
  let (val, s) := getRandomU64 w s
  (.ok val, s)

end Backend

theorem innerU32_eq (w : Nat → UInt64) (s : State) :
    innerU32 w s = some (.ok (w s.calls).toUInt32, { s with calls := s.calls + 1 }) := by
  simp only [innerU32, getRandomU64, truncate_eq]
  rfl

/-! ### Filling as cutting a stream -/

/-- The state after words from the stream, cut to the lengths, were stored one behind
    the other. -/
def filled (w : Nat → UInt64) (s : State) (lens : List Nat) (addr : Nat) : State where
  memory := s.memory.storeBytes addr (cut w s.calls lens)
  calls := s.calls + lens.length

theorem filled_append (w : Nat → UInt64) (lens lens' : List Nat) (addr : Nat) (s : State)
    (hlens : ∀ len ∈ lens, len ≤ 8) :
    filled w s (lens ++ lens') addr = filled w (filled w s lens addr) lens' (addr + lens.sum) := by
  simp only [filled, cut_append, Memory.storeBytes_append, length_cut w s.calls lens hlens,
    List.length_append, Nat.add_assoc]

/-- The pieces of a part that one draw serves. -/
def partLengths (len : Nat) : List Nat := if len = 0 then [] else [len]

theorem sum_partLengths (len : Nat) : (partLengths len).sum = len := by
  unfold partLengths
  split
  · rename_i hlen
    simp [hlen]
  · simp

theorem le_of_mem_partLengths {len bound : Nat} (hlen : len ≤ bound) :
    ∀ l ∈ partLengths len, l ≤ bound := by
  intro l hl
  unfold partLengths at hl
  split at hl
  · cases hl
  · rw [List.mem_singleton.mp hl]
    exact hlen

theorem fillPart_eq (w : Nat → UInt64) (part : Slice) (s : State) (hlen : part.len ≤ 8) :
    fillPart w part s = .ok (filled w s (partLengths part.len) part.addr) := by
  unfold fillPart partLengths
  by_cases hzero : part.len = 0
  · rw [if_neg (by simpa using hzero), if_pos hzero]
    rfl
  · have hsrc : part.len ≤ (leBytes (w s.calls)).length := by
      rw [length_leBytes]
      exact hlen
    rw [if_pos hzero, if_neg hzero]
    simp only [getRandomU64, copyNonoverlapping_ok part.addr s.memory hsrc, ok_bind]
    simp only [filled, cut, List.append_nil]
    rfl

theorem writeChunks_eq (w : Nat → UInt64) (addr count : Nat) (s : State) (haddr : addr % 8 = 0) :
    writeChunks w addr count s = .ok (filled w s (List.replicate count 8) addr) := by
  induction count generalizing addr s with
  | zero => rfl
  | succ count ih =>
    let next := State.mk (s.memory.storeBytes addr (leBytes (w s.calls))) (s.calls + 1)
    have hword : filled w s [8] addr = next := by
      simp [filled, cut, List.take_of_length_le, next]
    have hsplit := filled_append w [8] (List.replicate count 8) addr s (by simp)
    rw [hword] at hsplit
    rw [List.replicate_succ, ← List.singleton_append, hsplit]
    simp only [writeChunks, getRandomU64, writeU64_ok _ s.memory haddr, ok_bind]
    exact ih (addr + 8) next (by omega)

/-! ### The three parts -/

/-- The bytes before the first word, `p`. -/
def headLength (addr len : Nat) : Nat := min len (alignOffset addr)

/-- The whole words, `k`. -/
def chunkCount (addr len : Nat) : Nat := (len - headLength addr len) / 8

/-- The bytes after the last word, `s`. -/
def tailLength (addr len : Nat) : Nat := (len - headLength addr len) % 8

def pieces (addr len : Nat) : List Nat :=
  partLengths (headLength addr len) ++
    (List.replicate (chunkCount addr len) 8 ++ partLengths (tailLength addr len))

/-- How often the host is called. -/
def hostCalls (addr len : Nat) : Nat :=
  (if 0 < headLength addr len then 1 else 0) + chunkCount addr len +
    (if 0 < tailLength addr len then 1 else 0)

theorem length_partLengths (len : Nat) :
    (partLengths len).length = if 0 < len then 1 else 0 := by
  unfold partLengths
  by_cases hlen : len = 0
  · simp [hlen]
  · rw [if_neg hlen, if_pos (Nat.pos_of_ne_zero hlen)]
    rfl

theorem length_pieces (addr len : Nat) : (pieces addr len).length = hostCalls addr len := by
  simp only [pieces, hostCalls, List.length_append, List.length_replicate, length_partLengths]
  omega

theorem headLength_le (addr len : Nat) : headLength addr len ≤ 8 := by
  unfold headLength alignOffset
  omega

theorem tailLength_le (addr len : Nat) : tailLength addr len ≤ 8 :=
  Nat.le_of_lt (Nat.mod_lt _ (by decide))

theorem pieces_le (addr len : Nat) : ∀ l ∈ pieces addr len, l ≤ 8 := by
  intro l hl
  rw [pieces, List.mem_append, List.mem_append] at hl
  rcases hl with hl | hl | hl
  · exact le_of_mem_partLengths (headLength_le addr len) l hl
  · exact Nat.le_of_eq (List.eq_of_mem_replicate hl)
  · exact le_of_mem_partLengths (tailLength_le addr len) l hl

theorem sum_pieces (addr len : Nat) : (pieces addr len).sum = len := by
  have hhead : headLength addr len ≤ len := Nat.min_le_left _ _
  rw [pieces, List.sum_append, List.sum_append, sum_partLengths, sum_partLengths,
    List.sum_replicate_nat, chunkCount, tailLength]
  omega

theorem alignToMut_spec (addr len : Nat) :
    ∃ chunks after, alignToMut ⟨addr, len⟩ = (⟨addr, headLength addr len⟩, chunks, after) ∧
      chunks.len = chunkCount addr len ∧ chunks.addr % 8 = 0 ∧
      (chunks.len ≠ 0 → chunks.addr = addr + headLength addr len) ∧
      after.len = tailLength addr len ∧
      (after.len ≠ 0 → after.addr = addr + headLength addr len + 8 * chunkCount addr len) := by
  unfold alignToMut chunkCount tailLength
  by_cases hlen : len < alignOffset addr
  · have hhead : headLength addr len = len := Nat.min_eq_left (Nat.le_of_lt hlen)
    rw [hhead]
    refine ⟨⟨8, 0⟩, ⟨1, 0⟩, if_pos hlen, ?_, rfl, ?_, ?_, ?_⟩
    · simp
    · intro hne
      exact absurd rfl hne
    · simp
    · intro hne
      exact absurd rfl hne
  · have hhead : headLength addr len = alignOffset addr := Nat.min_eq_right (Nat.not_lt.mp hlen)
    have haligned : (addr + alignOffset addr) % 8 = 0 := by
      unfold alignOffset
      omega
    rw [hhead]
    exact ⟨_, _, if_neg hlen, rfl, haligned, fun _ => rfl, rfl, fun _ => rfl⟩

theorem fillInner_eq (w : Nat → UInt64) (addr len : Nat) (s : State) :
    fillInner w ⟨addr, len⟩ s = .ok (.ok (), filled w s (pieces addr len) addr) := by
  obtain ⟨chunks, after, hparts, hcount, haligned, hchunks, hlast, hafter⟩ :=
    alignToMut_spec addr len
  have hhead := headLength_le addr len
  have htail := tailLength_le addr len
  have hwords : ∀ l ∈ List.replicate (chunkCount addr len) 8, l ≤ 8 := by
    intro l hl
    exact Nat.le_of_eq (List.eq_of_mem_replicate hl)
  let s₁ := filled w s (partLengths (headLength addr len)) addr
  let s₂ := filled w s₁ (List.replicate (chunkCount addr len) 8) (addr + headLength addr len)
  have hfirst : fillPart w ⟨addr, headLength addr len⟩ s = .ok s₁ := fillPart_eq w _ s hhead
  have hloop : writeChunks w chunks.addr chunks.len s₁ = .ok s₂ := by
    rw [writeChunks_eq w _ _ _ haligned, hcount]
    by_cases hzero : chunkCount addr len = 0
    · -- nothing is stored, so the place does not matter
      simp only [s₂, hzero]
      rfl
    · rw [hchunks (hcount ▸ hzero)]
  have hend : fillPart w after s₂ = .ok (filled w s₂ (partLengths (tailLength addr len))
      (addr + headLength addr len + 8 * chunkCount addr len)) := by
    rw [fillPart_eq w _ _ (hlast ▸ htail), hlast]
    by_cases hzero : tailLength addr len = 0
    · rw [hzero]
      rfl
    · rw [hafter (hlast ▸ hzero)]
  have hjoin : filled w s (pieces addr len) addr = filled w s₂ (partLengths (tailLength addr len))
      (addr + headLength addr len + 8 * chunkCount addr len) := by
    rw [pieces, filled_append w _ _ _ _ (le_of_mem_partLengths hhead), sum_partLengths,
      filled_append w _ _ _ _ hwords, List.sum_replicate_nat, Nat.mul_comm]
  rw [hjoin, fillInner, hparts]
  simp only [hfirst, hloop, hend, ok_bind]
  rfl

/-! ### The buffer afterwards -/

structure Filled (w : Nat → UInt64) (addr len : Nat) (s s' : State) : Prop where
  calls : s'.calls = s.calls + hostCalls addr len
  /-- The head of one word, whole words, and the head of one more. -/
  bytes : s'.memory.load addr len =
    ((leBytes (w s.calls)).take (headLength addr len) ++
      ((List.range (chunkCount addr len)).flatMap fun j =>
        leBytes (w (s.calls + (if 0 < headLength addr len then 1 else 0) + j))) ++
      (leBytes (w (s.calls + (if 0 < headLength addr len then 1 else 0) +
        chunkCount addr len))).take (tailLength addr len)).map some
  outside : ∀ x, x < addr ∨ addr + len ≤ x → s'.memory.cells x = s.memory.cells x
  once : s'.memory.writes = s.memory.writes ++ (List.range len).map (addr + ·)

theorem cut_partLengths (w : Nat → UInt64) (d len : Nat) :
    cut w d (partLengths len) = (leBytes (w d)).take len := by
  unfold partLengths
  split
  · rename_i hlen
    rw [hlen]
    rfl
  · simp [cut]

theorem filled_pieces (w : Nat → UInt64) (addr len : Nat) (s : State) :
    Filled w addr len s (filled w s (pieces addr len) addr) := by
  have hlength : (cut w s.calls (pieces addr len)).length = len := by
    rw [length_cut w _ _ (pieces_le addr len), sum_pieces]
  refine ⟨?_, ?_, ?_, ?_⟩
  · rw [filled, length_pieces]
  · have hload := Memory.load_storeBytes s.memory addr (cut w s.calls (pieces addr len))
    rw [hlength] at hload
    rw [filled, hload, pieces, cut_append, cut_append, cut_partLengths, cut_replicate,
      cut_partLengths, length_partLengths, List.length_replicate, List.append_assoc]
  · intro x hx
    apply Memory.storeBytes_outside
    rw [hlength]
    exact hx
  · have hwrites := Memory.writes_storeBytes s.memory addr (cut w s.calls (pieces addr len))
    rw [hlength] at hwrites
    exact hwrites

theorem pieces_zero (addr : Nat) : pieces addr 0 = [] := by
  simp [pieces, headLength, chunkCount, tailLength, partLengths]

theorem initialises_filled (w : Nat → UInt64) (addr len : Nat) (s : State) :
    Initialises ⟨addr, len⟩ (.ok ()) (filled w s (pieces addr len) addr) := by
  intro _ c hc
  rw [(filled_pieces w addr len s).bytes] at hc
  rcases List.mem_map.mp hc with ⟨b, _, rfl⟩
  rfl

theorem fillUninit_eq (w : Nat → UInt64) (addr len : Nat) (s : State) :
    fillUninit (fillInner w) ⟨addr, len⟩ s =
      .ok (.ok ⟨addr, len⟩, filled w s (pieces addr len) addr) := by
  by_cases hlen : len = 0
  · rw [hlen, pieces_zero, fillUninit_empty]
    rfl
  · exact fillUninit_of_initialises hlen (fillInner_eq w addr len s)
      (initialises_filled w addr len s)

/-- **The buffer is filled completely with fresh host randomness and nothing else.**
    No copy reads past its word, each byte is written once, and it is a byte of the
    stream that no other index gets: `cutPositions` names it for every stream. -/
theorem fillUninit_fills (w : Nat → UInt64) (addr len : Nat) (s : State) :
    ∃ s', fillUninit (fillInner w) ⟨addr, len⟩ s = .ok (.ok ⟨addr, len⟩, s') ∧ Filled w addr len s s' ∧
      (len = 0 → s' = s) ∧
      s'.memory.load addr len =
        (cutPositions s.calls (pieces addr len)).map (fun q => some (leByte (w q.1) q.2)) ∧
      (cutPositions s.calls (pieces addr len)).length = len ∧
      (cutPositions s.calls (pieces addr len)).Nodup ∧
      ∀ q ∈ cutPositions s.calls (pieces addr len),
        s.calls ≤ q.1 ∧ q.1 < s.calls + hostCalls addr len ∧ q.2 < 8 := by
  refine ⟨_, fillUninit_eq w addr len s, filled_pieces w addr len s, ?_, ?_, ?_, ?_, ?_⟩
  · intro hlen
    rw [hlen, pieces_zero]
    rfl
  · have hload := Memory.load_storeBytes s.memory addr (cut w s.calls (pieces addr len))
    rw [length_cut w _ _ (pieces_le addr len), sum_pieces] at hload
    rw [filled, hload, cut_eq_map w _ _ (pieces_le addr len), List.map_map]
    rfl
  · rw [length_cutPositions, sum_pieces]
  · exact nodup_cutPositions s.calls (pieces addr len)
  · intro q hq
    have ⟨hlow, hhigh, l, hl, hposition⟩ := mem_cutPositions hq
    rw [length_pieces] at hhigh
    exact ⟨hlow, hhigh, Nat.lt_of_lt_of_le hposition (pieces_le addr len l hl)⟩

end DevenvTemplate.WasiP3
