import Mathlib.Data.Nat.Bitwise
import Mathlib.Data.Nat.ModEq

/-!
# The receive ring of the RTL8139 driver

The receive loop of `interrupt_method` in `src/kernel/rtl8139_pciethernet.c`, as far as it follows the
headers that the device has stored: each iteration wraps `cur_rx`, reads a header there and moves on
by the size it has read. One sequence of iterations may belong to several interrupts, as `cur_rx` is
kept in between.

The wrap test `cur_rx > RX_BUF_LEN` leaves out the end of the ring itself, so the driver reads past it
when a packet ends exactly there (`follows_iff`).
-/

namespace CodingForFun.Rtl8139

/-- `RX_BUF_LEN` of `rtl8139.h`. -/
structure RxBufLen where
  len : ℕ
  pos : 0 < len
  dvd : 4 ∣ len
  lt : len < 2 ^ 32

/-- `(size + 4 + 3) & ~3`: what a packet takes in the ring. -/
def slotSize (size : ℕ) : ℕ := (size + 4 + 3) &&& 0xfffffffc

/-- The bytes that the device has stored before its packet number `i`. -/
def total (size : ℕ → ℕ) : ℕ → ℕ
  | 0 => 0
  | i + 1 => total size i + slotSize (size i)

/-- The packets that the device has received: their sizes, and what a 32-bit read from the ring gives
when the driver is to fetch packet number `i`. Its header is stored at the running total. -/
structure Received (R : RxBufLen) where
  size : ℕ → ℕ
  ring : ℕ → ℕ → ℕ
  stored : ∀ i, ring i (total size i % R.len) >>> 16 % 2 ^ 16 = size i

/-- Wrap ring buffer if at end. -/
def rxWrap (R : RxBufLen) (curRx : ℕ) : ℕ := if curRx > R.len then curRx % R.len else curRx

/-- `cur_rx` after an iteration. -/
def rxNext (R : RxBufLen) (ring : ℕ → ℕ) (curRx : ℕ) : ℕ :=
  let curRx := rxWrap R curRx
  let rxStatus := ring curRx
  let rxSize := rxStatus >>> 16 % 2 ^ 16
  (curRx + rxSize + 4 + 3) % 2 ^ 32 &&& 0xfffffffc

variable {R : RxBufLen}

/-- `cur_rx` before iteration `i`. -/
def curRx (d : Received R) : ℕ → ℕ
  | 0 => 0
  | i + 1 => rxNext R (d.ring i) (curRx d i)

/-- Iteration `i` reads the header where the device has stored it. -/
def Follows (d : Received R) (i : ℕ) : Prop := rxWrap R (curRx d i) = total d.size i % R.len

/-- Packet number `i` does not end exactly at the end of the ring, and no `unsigned int` overflows. -/
def EndsElsewhere (d : Received R) (i : ℕ) : Prop :=
  total d.size i % R.len + slotSize (d.size i) ≠ R.len ∧
    total d.size i % R.len + slotSize (d.size i) < 2 ^ 32

theorem and_not_three {x : ℕ} (hx : x < 2 ^ 32) : x &&& 0xfffffffc = x / 4 * 4 := by
  have hmask : 0xfffffffc = (2 ^ 30 - 1) <<< 2 := by decide
  have hround : x / 4 * 4 = x >>> 2 <<< 2 := by
    rw [Nat.shiftRight_eq_div_pow, Nat.shiftLeft_eq]
  rw [hmask, hround]
  apply Nat.eq_of_testBit_eq
  intro i
  rw [Nat.testBit_and, Nat.testBit_shiftLeft, Nat.testBit_shiftLeft, Nat.testBit_shiftRight,
    Nat.testBit_two_pow_sub_one]
  by_cases hi : i < 32
  · by_cases htwo : 2 ≤ i
    · have hlow : i - 2 < 30 := by omega
      have hsame : 2 + (i - 2) = i := by omega
      simp [htwo, hlow, hsame]
    · simp [htwo]
  · have hbit : x.testBit i = false := by
      apply Nat.testBit_lt_two_pow
      exact hx.trans_le (Nat.pow_le_pow_right (by decide) (by omega))
    have hsame : 2 + (i - 2) = i := by omega
    simp [hbit, hsame]

section follows

variable {d : Received R} {i : ℕ}

theorem size_lt (d : Received R) (i : ℕ) : d.size i < 2 ^ 16 := by
  rw [← d.stored i]
  exact Nat.mod_lt _ (by decide)

theorem slotSize_eq (d : Received R) (i : ℕ) : slotSize (d.size i) = (d.size i + 7) / 4 * 4 := by
  have hsize := size_lt d i
  unfold slotSize
  rw [and_not_three (by omega)]

theorem four_dvd_total (d : Received R) (i : ℕ) : 4 ∣ total d.size i := by
  induction i with
  | zero => exact Nat.dvd_zero 4
  | succ i ih =>
    refine Nat.dvd_add ih ?_
    rw [slotSize_eq]
    exact Nat.dvd_mul_left 4 _

theorem curRx_succ (hi : Follows d i) :
    curRx d (i + 1) = (total d.size i % R.len + slotSize (d.size i)) % 2 ^ 32 := by
  have hdvd : 4 ∣ total d.size i % R.len := (Nat.dvd_mod_iff R.dvd).mpr (four_dvd_total d i)
  show (rxWrap R (curRx d i) + (d.ring i (rxWrap R (curRx d i)) >>> 16 % 2 ^ 16) + 4 + 3) % 2 ^ 32 &&&
    0xfffffffc = _
  rw [hi, d.stored, and_not_three (Nat.mod_lt _ (by decide)), slotSize_eq]
  omega

/-- The wrap test is right about an offset inside the ring plus a packet exactly when that is not the
end of the ring, and has not overflowed. -/
theorem rxWrap_eq_iff {offset slot : ℕ} (hoffset : offset < R.len) (hslot : slot < 2 ^ 17) :
    rxWrap R ((offset + slot) % 2 ^ 32) = (offset + slot) % R.len ↔
      offset + slot ≠ R.len ∧ offset + slot < 2 ^ 32 := by
  have hlen := R.lt
  by_cases hfits : offset + slot < 2 ^ 32
  · rw [Nat.mod_eq_of_lt hfits]
    unfold rxWrap
    rcases lt_trichotomy (offset + slot) R.len with hlt | heq | hgt
    · rw [if_neg hlt.le.not_gt, Nat.mod_eq_of_lt hlt]
      exact iff_of_true rfl ⟨hlt.ne, hfits⟩
    · rw [heq, if_neg (lt_irrefl _), Nat.mod_self]
      simp [R.pos.ne']
    · rw [if_pos hgt]
      exact iff_of_true rfl ⟨hgt.ne', hfits⟩
  · -- The ring is longer than what the sum exceeds `2 ^ 32` by.
    have hsum : (offset + slot) % 2 ^ 32 = offset + slot - 2 ^ 32 := by omega
    have hwrapped : (offset + slot) % R.len = offset + slot - R.len := by
      rw [Nat.mod_eq_sub_mod (by omega), Nat.mod_eq_of_lt (by omega)]
    rw [hsum, hwrapped]
    unfold rxWrap
    rw [if_neg (by omega)]
    omega

/-- The next iteration is right too exactly when the packet does not end at the end of the ring. -/
theorem follows_succ_iff (hi : Follows d i) : Follows d (i + 1) ↔ EndsElsewhere d i := by
  have hoffset : total d.size i % R.len < R.len := Nat.mod_lt _ R.pos
  have hsize := size_lt d i
  have hslot := slotSize_eq d i
  have hnext : total d.size (i + 1) % R.len =
      (total d.size i % R.len + slotSize (d.size i)) % R.len := by
    show (total d.size i + slotSize (d.size i)) % R.len = _
    rw [Nat.mod_add_mod]
  unfold Follows EndsElsewhere
  rw [curRx_succ hi, hnext]
  exact rxWrap_eq_iff hoffset (by omega)

end follows

/-- The first `n` iterations read every header where the device has stored it exactly when none of
the packets before the last one ends at the end of the ring. -/
theorem follows_iff (d : Received R) (n : ℕ) :
    (∀ i < n, Follows d i) ↔ ∀ i, i + 1 < n → EndsElsewhere d i := by
  constructor
  · intro hall i hi
    exact (follows_succ_iff (hall i (Nat.lt_of_succ_lt hi))).mp (hall (i + 1) hi)
  · intro hends i hi
    induction i with
    | zero =>
      show rxWrap R 0 = 0 % R.len
      rw [Nat.zero_mod]
      exact if_neg (Nat.not_lt_zero _)
    | succ i ih => exact (follows_succ_iff (ih (Nat.lt_of_succ_lt hi))).mpr (hends i hi)

def ring8K : RxBufLen := ⟨8192, by decide, by decide, by decide⟩

/-- Packets of 1020 bytes: eight of them fill a ring of 8 KiB. -/
def evenPackets : Received ring8K := ⟨fun _ => 1020, fun _ _ => 1020 * 2 ^ 16, fun _ => by decide⟩

/-- The ninth header is at the start of the ring, and the driver reads behind its end. -/
theorem ninth_packet : rxWrap ring8K (curRx evenPackets 8) = 8192 ∧ ¬ Follows evenPackets 8 := by
  have hread : rxWrap ring8K (curRx evenPackets 8) = 8192 := by decide +kernel
  refine ⟨hread, ?_⟩
  unfold Follows
  rw [hread]
  decide +kernel

end CodingForFun.Rtl8139
