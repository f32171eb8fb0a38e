import DevenvTemplate.ByteMemory
import Mathlib.Tactic.Ring

/-!
# Numbers and their bytes

The bytes of a number, the lowest one first, and back.
-/

namespace ByteMemory

/-- The `count` lowest bytes of a number. -/
def toLe (count x : Nat) : List UInt8 := (List.range count).map fun i => UInt8.ofNat (x >>> (8 * i))

def fromLe : List UInt8 → Nat
  | [] => 0
  | b :: bs => b.toNat + 256 * fromLe bs

@[simp] theorem length_toLe (count x : Nat) : (toLe count x).length = count := by
  simp [toLe]

theorem toLe_succ (count x : Nat) :
    toLe (count + 1) x = UInt8.ofNat x :: toLe count (x / 256) := by
  rw [toLe, List.range_succ_eq_map, List.map_cons, List.map_map]
  congr 1
  apply List.map_congr_left
  intro i _
  have hplace : 8 * (i + 1) = 8 + 8 * i := by ring
  rw [Function.comp_apply, Nat.succ_eq_add_one, hplace, Nat.shiftRight_add,
    Nat.shiftRight_eq_div_pow x 8]

theorem fromLe_toLe (count x : Nat) : fromLe (toLe count x) = x % 256 ^ count := by
  induction count generalizing x with
  | zero => simp [toLe, fromLe, Nat.mod_one]
  | succ count ih =>
    have hbyte : (UInt8.ofNat x).toNat = x % 256 := by
      simp [UInt8.toNat_ofNat']
    rw [toLe_succ, fromLe, ih, hbyte, Nat.pow_succ, Nat.mul_comm (256 ^ count), Nat.mod_mul]

theorem fromLe_lt (bs : List UInt8) : fromLe bs < 256 ^ bs.length := by
  induction bs with
  | nil => decide
  | cons b bs ih =>
    have hb := b.toNat_lt
    rw [fromLe, List.length_cons, Nat.pow_succ]
    omega

theorem toLe_fromLe (bs : List UInt8) : toLe bs.length (fromLe bs) = bs := by
  induction bs with
  | nil => rfl
  | cons b bs ih =>
    have hb := b.toNat_lt
    have hrest : (b.toNat + 256 * fromLe bs) / 256 = fromLe bs := by omega
    have hfirst : UInt8.ofNat (b.toNat + 256 * fromLe bs) = b := by
      apply UInt8.toNat_inj.mp
      rw [UInt8.toNat_ofNat']
      omega
    rw [List.length_cons, fromLe, toLe_succ, hrest, ih, hfirst]

/-- The bytes of a word are those of its value. -/
theorem leBytes_eq (v : UInt64) : leBytes v = toLe 8 v.toNat := rfl

theorem take_leBytes_eq (v : UInt64) {len : Nat} (hlen : len ≤ 8) :
    (leBytes v).take len = toLe len v.toNat := by
  rw [take_leBytes v hlen]
  rfl

end ByteMemory
