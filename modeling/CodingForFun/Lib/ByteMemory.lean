import Mathlib.Data.BitVec
import Mathlib.Logic.Function.Basic

/-!
# Memory of bytes with word accesses

A memory maps the addresses of 32 bits to bytes; an address that is not mapped faults. Words lie in it
with their least significant byte first, at any address. A word that was stored is loaded again
(`load_store_self`), and a store leaves the words alone that are off the four bytes
(`load_store_of_apart`).
-/

namespace CodingForFun.Lib

abbrev Word := BitVec 32

abbrev ByteMemory := Word → Option (BitVec 8)

namespace ByteMemory

variable {m m' : ByteMemory} {a b : Word} {w v : Word}

/-- The bytes of a word. -/
def byte (w : Word) (k : ℕ) : BitVec 8 := (w >>> (8 * k)).setWidth 8

/-- The word with these bytes. -/
def join (b₀ b₁ b₂ b₃ : BitVec 8) : Word :=
  b₀.setWidth 32 ||| b₁.setWidth 32 <<< 8 ||| b₂.setWidth 32 <<< 16 ||| b₃.setWidth 32 <<< 24

/-- The word at an address. -/
def load (m : ByteMemory) (a : Word) : Option Word :=
  match m a, m (a + 1#32), m (a + 2#32), m (a + 3#32) with
  | some b₀, some b₁, some b₂, some b₃ => some (join b₀ b₁ b₂ b₃)
  | _, _, _, _ => none

/-- Four mapped bytes. -/
def Mapped (m : ByteMemory) (a : Word) : Prop := ∀ k < 4, (m (a + BitVec.ofNat 32 k)).isSome

instance : Decidable (Mapped m a) := inferInstanceAs (Decidable (∀ k < 4, _))

/-- The memory with a word at an address. -/
def write (m : ByteMemory) (a : Word) (w : Word) : ByteMemory := fun b =>
  if (b - a).toNat < 4 then some (byte w (b - a).toNat) else m b

/-- A store to an address. -/
def store (m : ByteMemory) (a : Word) (w : Word) : Option ByteMemory :=
  if Mapped m a then some (write m a w) else none

theorem join_byte (w : Word) : join (byte w 0) (byte w 1) (byte w 2) (byte w 3) = w := by
  apply BitVec.eq_of_getLsbD_eq
  intro k hk
  unfold join byte
  simp only [BitVec.getLsbD_or, BitVec.getLsbD_setWidth, BitVec.getLsbD_shiftLeft, BitVec.getLsbD_ushiftRight]
  by_cases h8 : k < 8
  · have h16 : k < 16 := by omega
    have h24 : k < 24 := by omega
    simp [hk, h8, h16, h24]
  · by_cases h16 : k < 16
    · have hsub : k - 8 < 8 := by omega
      have hlt : k - 8 < 32 := by omega
      have hback : 8 + (k - 8) = k := by omega
      have h24 : k < 24 := by omega
      simp [hk, h8, h16, h24, hsub, hlt, hback]
    · have hsub : ¬ k - 8 < 8 := by omega
      by_cases h24 : k < 24
      · have hsub' : k - 16 < 8 := by omega
        have hlt : k - 16 < 32 := by omega
        have hback : 16 + (k - 16) = k := by omega
        simp [hk, h8, h16, h24, hsub, hsub', hlt, hback]
      · have hsub' : ¬ k - 16 < 8 := by omega
        have hsub'' : k - 24 < 8 := by omega
        have hlt : k - 24 < 32 := by omega
        have hback : 24 + (k - 24) = k := by omega
        simp [hk, h8, h16, h24, hsub, hsub', hsub'', hlt, hback]

theorem load_congr (h : ∀ k < 4, m (a + BitVec.ofNat 32 k) = m' (a + BitVec.ofNat 32 k)) :
    load m a = load m' a := by
  have h₀ := h 0 (by decide)
  rw [BitVec.add_zero] at h₀
  unfold load
  rw [h₀, h 1 (by decide), h 2 (by decide), h 3 (by decide)]

theorem store_ok (h : Mapped m a) (w : Word) : store m a w = some (write m a w) := if_pos h

theorem isSome_write (h : (m b).isSome) : (write m a w b).isSome := by
  unfold write
  split
  · rfl
  · exact h

theorem Mapped.write (h : Mapped m a) (b w : Word) : Mapped (write m b w) a :=
  fun k hk => isSome_write (h k hk)

/-- The bytes of two words are different. -/
def Apart (a b : Word) : Prop := 4 ≤ (a - b).toNat ∧ 4 ≤ (b - a).toNat

instance (a b : Word) : Decidable (Apart a b) := inferInstanceAs (Decidable (_ ∧ _))

theorem write_of_le (m : ByteMemory) (w : Word) (h : 4 ≤ (b - a).toNat) : write m a w b = m b :=
  if_neg (Nat.not_lt.mpr h)

theorem load_write_self (m : ByteMemory) (a w : Word) : load (write m a w) a = some w := by
  have hbyte : ∀ k < 4, write m a w (a + BitVec.ofNat 32 k) = some (byte w k) := by
    intro k hk
    have hoff : (a + BitVec.ofNat 32 k - a).toNat = k := by
      rw [add_sub_cancel_left, BitVec.toNat_ofNat, Nat.mod_eq_of_lt (by omega)]
    unfold write
    rw [hoff, if_pos hk]
  have h₀ := hbyte 0 (by decide)
  rw [BitVec.add_zero] at h₀
  unfold load
  rw [h₀, hbyte 1 (by decide), hbyte 2 (by decide), hbyte 3 (by decide)]
  exact congrArg some (join_byte w)

theorem load_write_of_apart (m : ByteMemory) (w : Word) (hab : Apart a b) :
    load (write m a w) b = load m b := by
  apply load_congr
  intro k hk
  apply write_of_le
  obtain ⟨h₁, h₂⟩ := hab
  bv_omega

end ByteMemory

end CodingForFun.Lib
