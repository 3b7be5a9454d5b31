import CodingForFun.Lib.MinHeap
import Mathlib.Data.Nat.Notation

/-!
# The buffer of `producerconsumer_condv2.c` and `producerconsumer_semaphore.c`

Both programs keep their values in the array `buffer` below `index1` and use the same macros, so it is
a stack. Indices are unbounded integers and the array is a function of them: that they stay in it is
proved of each program. `stored` is the multiset of the values in the buffer.
-/

namespace CodingForFun.ProducerConsumerBuffer

open Lib.MinHeap

/-- `SIZE` -/
abbrev SIZE : ℕ := 10

/-- `buffer` and `index1` -/
structure Buffer where
  buffer : Int → Int
  index1 : Int

/-- `queue(v)`; `none` when the assertion fails. -/
def queue (v : Int) (b : Buffer) : Option Buffer :=
  if b.index1 ≤ SIZE then some ⟨Function.update b.buffer b.index1 v, b.index1 + 1⟩ else none

/-- `dequeue()`: the value, and the buffer without it. -/
def dequeue (b : Buffer) : Int × Buffer :=
  let index1 := b.index1 - 1
  (b.buffer index1, ⟨b.buffer, index1⟩)

/-- `isfull()` -/
def isfull (b : Buffer) : Bool := decide (b.index1 = SIZE)

/-- `isempty()` -/
def isempty (b : Buffer) : Bool := decide (b.index1 = 0)

/-- `index1` is 0, and so is the array. -/
def empty : Buffer := ⟨fun _ => 0, 0⟩

/-- The values in the buffer. -/
def stored (b : Buffer) : Multiset Int := contents (fun i => b.buffer i) b.index1.toNat

theorem card_stored (b : Buffer) : (stored b).card = b.index1.toNat := card_contents _ _

theorem queue_of_le {v : Int} {b : Buffer} (h : b.index1 ≤ SIZE) :
    queue v b = some ⟨Function.update b.buffer b.index1 v, b.index1 + 1⟩ := if_pos h

theorem stored_queue {v : Int} {b : Buffer} (hpos : 0 ≤ b.index1) :
    stored ⟨Function.update b.buffer b.index1 v, b.index1 + 1⟩ = v ::ₘ stored b := by
  obtain ⟨n, hn⟩ := Int.eq_ofNat_of_zero_le hpos
  have htop : (b.index1 + 1).toNat = n + 1 := by omega
  have hbelow : contents (fun i : ℕ => Function.update b.buffer b.index1 v i) n =
      contents (fun i : ℕ => b.buffer i) n := by
    apply contents_congr
    intro i hi
    exact Function.update_of_ne (by omega) _ _
  rw [stored, stored, htop, contents_succ, hbelow, hn, Int.toNat_natCast]
  congr 1
  exact Function.update_self ..

theorem stored_dequeue {b : Buffer} (hpos : 0 < b.index1) :
    (dequeue b).1 ::ₘ stored (dequeue b).2 = stored b := by
  obtain ⟨n, hn⟩ := Int.eq_ofNat_of_zero_le (show 0 ≤ b.index1 - 1 by omega)
  have htop : b.index1.toNat = n + 1 := by omega
  simp only [dequeue, stored, htop, contents_succ, hn, Int.toNat_natCast]

end CodingForFun.ProducerConsumerBuffer
