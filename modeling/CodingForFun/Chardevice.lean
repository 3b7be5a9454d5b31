import CodingForFun.Lib.Cells
import Mathlib.Algebra.GroupWithZero.Nat
import Mathlib.Data.List.Basic

/-!
# The character device

`dev_read` and `dev_write` of `src/kernel/chardevice.c` (and `chardevice2.c`, which has the same two
functions) over the 20 bytes of `device_buffer`. The copies between user space and the kernel copy
some prefix and return the number of bytes not copied; how many bytes can be copied is left open. A
copy that would leave `device_buffer` faults.

`dev_read` applies the position to the device buffer, `dev_write` to the user buffer. So a write is
the write of a random-access store only when the position does not matter (`meets_iff`).
-/

namespace CodingForFun.Chardevice

open Lib

def driverBufferSize : ℕ := 20

/-- The return value of `copy_to_user` and `copy_from_user` when `accessible` bytes of user space can
be copied. -/
def notCopied (count accessible : ℕ) : ℕ := count - min count accessible

/-- The bytes that `copy_to_user` delivers from `device_buffer + offset`. -/
def copyToUser (buffer : List UInt8) (offset count accessible : ℕ) : Except Fault (List UInt8) :=
  if offset + min count accessible ≤ buffer.length then
    .ok ((buffer.drop offset).take (min count accessible))
  else
    .error .outOfBounds

/-- The device buffer after `copy_from_user` to its start, from `user_buffer + offset`. -/
def copyFromUser (buffer : List UInt8) (user : ℕ → UInt8) (offset count accessible : ℕ) :
    Except Fault (List UInt8) :=
  if min count accessible ≤ buffer.length then
    .ok ((List.range (min count accessible)).map (fun i => user (offset + i)) ++
      buffer.drop (min count accessible))
  else
    .error .outOfBounds

/-- What a call leaves behind: its return value, `*position`, the device buffer, and the bytes
delivered to the user. -/
structure Outcome where
  returned : ℕ
  position : ℕ
  buffer : List UInt8
  delivered : List UInt8
  deriving DecidableEq

/-- `*position + count > DRIVER_BUFFER_SIZE` cuts the count; the sum is an `unsigned long`. -/
def clip (count position : ℕ) : ℕ :=
  if (position + count) % 2 ^ 64 > driverBufferSize then driverBufferSize - position else count

def devRead (buffer : List UInt8) (count accessible position : ℕ) : Except Fault Outcome := do
  if position ≥ driverBufferSize then
    return ⟨0, position, buffer, []⟩
  let count := clip count position
  let notCopied := notCopied count accessible
  let delivered ← copyToUser buffer position count accessible
  if notCopied = count then
    return ⟨0, position, buffer, delivered⟩
  pure ⟨count - notCopied, position + (count - notCopied), buffer, delivered⟩

def devWrite (buffer : List UInt8) (user : ℕ → UInt8) (count accessible position : ℕ) :
    Except Fault Outcome := do
  if position > driverBufferSize then
    return ⟨0, position, buffer, []⟩
  let count := clip count position
  let notCopied := notCopied count accessible
  -- the position is applied to the user buffer, not to the device buffer
  let buffer ← copyFromUser buffer user position count accessible
  if notCopied = count then
    return ⟨0, position, buffer, []⟩
  pure ⟨count - notCopied, position + (count - notCopied), buffer, []⟩

/-- A call as the caller makes it, its data apart. -/
structure Request where
  isWrite : Bool
  count : ℕ
  position : ℕ
  /-- bytes of user space that can be copied -/
  accessible : ℕ
  count_le : count ≤ 2 ^ 31
  position_lt : position < 2 ^ 63

def Request.run (r : Request) (buffer : List UInt8) (user : ℕ → UInt8) : Except Fault Outcome :=
  if r.isWrite then
    devWrite buffer user r.count r.accessible r.position
  else
    devRead buffer r.count r.accessible r.position

/-- The number of bytes a call copies. -/
def Request.copied (r : Request) : ℕ :=
  min (min r.count (driverBufferSize - r.position)) r.accessible

theorem Request.copied_le_count (r : Request) : r.copied ≤ r.count := by
  unfold Request.copied
  omega

/-- The read of what a call has copied, at the position of the call. -/
def Request.readBack (r : Request) : Request where
  isWrite := false
  count := r.copied
  position := r.position
  accessible := r.copied
  count_le := r.copied_le_count.trans r.count_le
  position_lt := r.position_lt

theorem Request.copied_readBack (r : Request) : r.readBack.copied = r.copied := by
  show min (min r.copied (driverBufferSize - r.position)) r.copied = r.copied
  unfold Request.copied
  omega

/-! ### What the calls do -/

section calls

variable {buffer : List UInt8} {count accessible position : ℕ}

theorem clip_eq (hcount : count ≤ 2 ^ 31) (hposition : position ≤ driverBufferSize) :
    clip count position = min count (driverBufferSize - position) := by
  unfold clip driverBufferSize at *
  have hsum : (position + count) % 2 ^ 64 = position + count := Nat.mod_eq_of_lt (by omega)
  rw [hsum]
  split <;> omega

theorem sub_notCopied : count - notCopied count accessible = min count accessible := by
  unfold notCopied
  omega

theorem notCopied_eq (h : notCopied count accessible = count) : min count accessible = 0 := by
  unfold notCopied at h
  omega

theorem devRead_eq (hbuffer : buffer.length = driverBufferSize) (r : Request) :
    devRead buffer r.count r.accessible r.position =
      .ok ⟨r.copied, r.position + r.copied, buffer, (buffer.drop r.position).take r.copied⟩ := by
  unfold devRead
  by_cases hposition : r.position ≥ driverBufferSize
  · have hcopied : r.copied = 0 := by
      unfold Request.copied
      omega
    rw [if_pos hposition, hcopied]
    simp
  · have hclip := clip_eq r.count_le (not_le.mp hposition).le
    have hinside : r.position + r.copied ≤ buffer.length := by
      unfold Request.copied
      omega
    have hcopy : copyToUser buffer r.position (min r.count (driverBufferSize - r.position))
        r.accessible = .ok ((buffer.drop r.position).take r.copied) := if_pos hinside
    rw [if_neg hposition]
    simp only [hclip, hcopy, sub_notCopied, ok_bind]
    split
    · next hnone =>
      have hcopied : r.copied = 0 := notCopied_eq hnone
      rw [hcopied]
      rfl
    · rfl

theorem devWrite_eq (hbuffer : buffer.length = driverBufferSize) (r : Request) (user : ℕ → UInt8) :
    devWrite buffer user r.count r.accessible r.position = .ok ⟨r.copied, r.position + r.copied,
      (List.range r.copied).map (fun i => user (r.position + i)) ++ buffer.drop r.copied, []⟩ := by
  unfold devWrite
  by_cases hposition : r.position > driverBufferSize
  · have hcopied : r.copied = 0 := by
      unfold Request.copied
      omega
    rw [if_pos hposition, hcopied]
    simp
  · have hclip := clip_eq r.count_le (not_lt.mp hposition)
    have hinside : r.copied ≤ buffer.length := by
      unfold Request.copied
      omega
    have hcopy : copyFromUser buffer user r.position (min r.count (driverBufferSize - r.position))
        r.accessible = .ok ((List.range r.copied).map (fun i => user (r.position + i)) ++
          buffer.drop r.copied) := if_pos hinside
    rw [if_neg hposition]
    simp only [hclip, hcopy, sub_notCopied, ok_bind]
    split
    · next hnone =>
      have hcopied : r.copied = 0 := notCopied_eq hnone
      rw [hcopied]
      rfl
    · rfl

end calls

/-! ### The random-access store -/

/-- What a call that ends in `o` does to a random-access store: a write puts the first bytes of the
data at its position, where they can be read back, and a read delivers the bytes at its position. -/
def Meets (r : Request) (buffer : List UInt8) (user : ℕ → UInt8) (o : Outcome) : Prop :=
  if r.isWrite then
    o.buffer = buffer.take r.position ++ (List.range o.returned).map user ++
        buffer.drop (r.position + o.returned) ∧
      ∃ o', devRead o.buffer o.returned o.returned r.position = .ok o' ∧
        o'.returned = o.returned ∧ o'.delivered = (List.range o.returned).map user
  else
    o.buffer = buffer ∧ o.delivered = (buffer.drop r.position).take o.returned ∧
      o.delivered.length = o.returned

/-- Every call of the sequence ends, and does to the device what it would do to a random-access
store, whatever the data that is written. -/
def AllMeet : List Request → List UInt8 → Prop
  | [], _ => True
  | r :: rs, buffer => ∀ user, ∃ o, r.run buffer user = .ok o ∧ Meets r buffer user o ∧
      AllMeet rs o.buffer

/-- The position of a write does not matter: it is 0, at the end, or nothing is copied. -/
def Request.Harmless (r : Request) : Prop :=
  r.position = 0 ∨ r.position ≥ driverBufferSize ∨ r.count = 0 ∨ r.accessible = 0

section store

variable {r : Request} {buffer : List UInt8}

theorem copied_le (r : Request) : r.copied ≤ driverBufferSize - r.position := by
  unfold Request.copied
  omega

theorem harmless_iff : r.Harmless ↔ r.position = 0 ∨ r.copied = 0 := by
  unfold Request.Harmless Request.copied
  omega

theorem devRead_meets (hbuffer : buffer.length = driverBufferSize) (hread : r.isWrite = false)
    (user : ℕ → UInt8) :
    ∃ o, r.run buffer user = .ok o ∧ Meets r buffer user o ∧ o.buffer = buffer := by
  have hrun : r.run buffer user = _ := (if_neg (by simp [hread])).trans (devRead_eq hbuffer r)
  refine ⟨_, hrun, ?_, rfl⟩
  unfold Meets
  rw [if_neg (by simp [hread])]
  refine ⟨rfl, rfl, ?_⟩
  have hcopied := copied_le r
  show ((buffer.drop r.position).take r.copied).length = r.copied
  rw [List.length_take, List.length_drop]
  omega

theorem run_write (hbuffer : buffer.length = driverBufferSize) (hwrite : r.isWrite = true)
    (user : ℕ → UInt8) :
    r.run buffer user = .ok ⟨r.copied, r.position + r.copied,
      (List.range r.copied).map (fun i => user (r.position + i)) ++ buffer.drop r.copied, []⟩ :=
  (if_pos hwrite).trans (devWrite_eq hbuffer r user)

theorem length_written (hbuffer : buffer.length = driverBufferSize) (f : ℕ → UInt8) :
    ((List.range r.copied).map f ++ buffer.drop r.copied).length = driverBufferSize := by
  have hcopied := copied_le r
  rw [List.length_append, List.length_map, List.length_range, List.length_drop]
  omega

theorem devWrite_meets (hbuffer : buffer.length = driverBufferSize) (hwrite : r.isWrite = true)
    (hr : r.Harmless) (user : ℕ → UInt8) :
    ∃ o, r.run buffer user = .ok o ∧ Meets r buffer user o ∧ o.buffer.length = driverBufferSize := by
  refine ⟨_, run_write hbuffer hwrite user, ?_, length_written hbuffer _⟩
  -- The write is the one at position 0.
  have hwritten : (List.range r.copied).map (fun i => user (r.position + i)) ++
      buffer.drop r.copied = buffer.take r.position ++ (List.range r.copied).map user ++
        buffer.drop (r.position + r.copied) := by
    rcases harmless_iff.mp hr with hposition | hcopied
    · simp [hposition]
    · simp [hcopied]
  have hcopied := copied_le r
  have hread := devRead_eq (length_written (r := r) hbuffer fun i => user (r.position + i)) r.readBack
  rw [r.copied_readBack] at hread
  unfold Meets
  rw [if_pos hwrite]
  refine ⟨hwritten, _, hread, rfl, ?_⟩
  show (List.drop r.position _).take r.copied = _
  rcases harmless_iff.mp hr with hposition | hcopied
  · simp [hposition]
  · simp [hcopied]

/-- A write at another position puts its bytes to the start of the device buffer, and in front of its
position a store would have left it alone. -/
theorem not_meets (hbuffer : buffer.length = driverBufferSize) (hwrite : r.isWrite = true)
    (hr : ¬ r.Harmless) :
    ∃ user, ∀ o, r.run buffer user = .ok o → ¬ Meets r buffer user o := by
  rw [harmless_iff, not_or] at hr
  obtain ⟨hposition, hcopied⟩ := hr
  obtain ⟨b, bs, rfl⟩ := List.exists_cons_of_length_pos (l := buffer) (by rw [hbuffer]; decide)
  refine ⟨fun _ => b + 1, ?_⟩
  intro o ho hmeets
  obtain rfl := Except.ok.inj ((run_write hbuffer hwrite _).symm.trans ho)
  unfold Meets at hmeets
  rw [if_pos hwrite] at hmeets
  have hfirst := congrArg List.head? hmeets.1
  obtain ⟨k, hk⟩ := Nat.exists_eq_succ_of_ne_zero hcopied
  obtain ⟨p, hp⟩ := Nat.exists_eq_succ_of_ne_zero hposition
  rw [hk, hp] at hfirst
  simp [List.range_succ_eq_map] at hfirst

end store

theorem AllMeet.harmless (rs : List Request) :
    ∀ buffer, buffer.length = driverBufferSize → AllMeet rs buffer →
      ∀ r ∈ rs, r.isWrite = true → r.Harmless := by
  induction rs with
  | nil => simp
  | cons r rs ih =>
    intro buffer hbuffer hall r' hr' hwrite
    rcases List.mem_cons.mp hr' with rfl | hr'
    · by_contra hharmful
      obtain ⟨user, hnot⟩ := not_meets hbuffer hwrite hharmful
      obtain ⟨o, hrun, hmeets, -⟩ := hall user
      exact hnot o hrun hmeets
    · obtain ⟨o, hrun, -, hrest⟩ := hall fun _ => 0
      refine ih o.buffer ?_ hrest r' hr' hwrite
      cases hkind : r.isWrite with
      | false =>
        obtain ⟨o', hrun', -, hsame⟩ := devRead_meets hbuffer hkind fun _ => 0
        obtain rfl := Except.ok.inj (hrun.symm.trans hrun')
        rw [hsame, hbuffer]
      | true =>
        obtain rfl := Except.ok.inj ((run_write hbuffer hkind _).symm.trans hrun)
        exact length_written hbuffer _

theorem allMeet_of_harmless (rs : List Request)
    (hharmless : ∀ r ∈ rs, r.isWrite = true → r.Harmless) :
    ∀ buffer, buffer.length = driverBufferSize → AllMeet rs buffer := by
  induction rs with
  | nil => exact fun _ _ => trivial
  | cons r rs ih =>
    intro buffer hbuffer user
    have hrest := ih fun r' hr' => hharmless r' (List.mem_cons_of_mem r hr')
    cases hkind : r.isWrite with
    | false =>
      obtain ⟨o, hrun, hmeets, hsame⟩ := devRead_meets hbuffer hkind user
      exact ⟨o, hrun, hmeets, hrest _ (by rw [hsame, hbuffer])⟩
    | true =>
      obtain ⟨o, hrun, hmeets, hlen⟩ := devWrite_meets hbuffer hkind
        (hharmless r List.mem_cons_self hkind) user
      exact ⟨o, hrun, hmeets, hrest _ hlen⟩

/-- Sequences of calls with these counts and positions treat the device as a random-access store,
whatever its contents and the data, exactly when the position of no write matters. -/
theorem allMeet_iff (rs : List Request) :
    (∀ buffer, buffer.length = driverBufferSize → AllMeet rs buffer) ↔
      ∀ r ∈ rs, r.isWrite = true → r.Harmless := by
  constructor
  · intro hall
    have hlen : (List.replicate driverBufferSize (0 : UInt8)).length = driverBufferSize :=
      List.length_replicate
    exact AllMeet.harmless rs _ hlen (hall _ hlen)
  · exact allMeet_of_harmless rs

/-- Two writes of two bytes through one file position: the second one overwrites the first. -/
theorem second_write_overwrites :
    ¬ AllMeet [⟨true, 2, 0, 2, by decide, by decide⟩, ⟨true, 2, 2, 2, by decide, by decide⟩]
      (List.replicate driverBufferSize 0) := by
  intro hall
  obtain ⟨o, hrun, -, hall⟩ := hall fun _ => 1
  obtain rfl : (⟨2, 2, [1, 1] ++ List.replicate 18 0, []⟩ : Outcome) = o := Except.ok.inj hrun
  obtain ⟨o, hrun, hmeets, -⟩ := hall fun _ => 2
  obtain rfl : (⟨2, 4, [2, 2] ++ List.replicate 18 0, []⟩ : Outcome) = o := Except.ok.inj hrun
  exact absurd hmeets.1 (by decide)

end CodingForFun.Chardevice
