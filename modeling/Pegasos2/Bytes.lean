import Mathlib.Algebra.Group.Nat.Defs
import Mathlib.Logic.Function.Basic
import Mathlib.Tactic.Common

namespace Pegasos2
set_option autoImplicit true

/-- The return codes of the modelled functions. A code that a device method hands through
unchanged, and that no modelled function tests for, is a `device` code. -/
inductive Retcode where
  | noError
  | rEnd
  | eNoDevice
  | eBlocksize
  | eReadError
  | eNoFile
  | eOutOfProm
  | eBadImage
  | eNoFilesys
  | eUnsupportedFilesys
  | eSeekError
  | eOutOfMemory
  | eAbort
  | eBadInstance
  | device (code : Nat)
  deriving DecidableEq, Repr

theorem except_bind_ok {x : Except ε α} {f : α → Except ε β} :
    x.bind f = .ok b ↔ ∃ a, x = .ok a ∧ f a = .ok b := by
  cases x with
  | error e => simp [Except.bind]
  | ok a => simp [Except.bind]

/-- A byte buffer seen from its first byte. Offsets at or past the end of the array name the
memory behind it, so that a read that runs over the end is not hidden by a default value. -/
abbrev Buf := Nat → UInt8

namespace Buf

def store (b : Buf) (i : Nat) (v : UInt8) : Buf := Function.update b i v

@[simp] theorem store_same (b : Buf) (i : Nat) (v : UInt8) : b.store i v i = v := by
  simp only [store, Function.update_self]

@[simp] theorem store_ne (b : Buf) (v : UInt8) (h : i ≠ j) : b.store j v i = b i := by
  simp only [store, Function.update_of_ne h]

/-- The loop `for (i = 0; i < n; i++) b[i] = f(i)`. -/
def fill (f : Nat → UInt8) : Nat → Buf → Buf
  | 0, b => b
  | n + 1, b => (fill f n b).store n (f n)

theorem fill_apply (f : Nat → UInt8) (n : Nat) (b : Buf) (i : Nat) :
    fill f n b i = if i < n then f i else b i := by
  induction n with
  | zero => rfl
  | succ n ih =>
    rw [fill]
    by_cases he : i = n
    · subst he
      rw [store_same, if_pos (Nat.lt_succ_self i)]
    · rw [store_ne _ _ he, ih]
      by_cases hlt : i < n
      · rw [if_pos hlt, if_pos (Nat.lt_succ_of_lt hlt)]
      · rw [if_neg hlt, if_neg (by omega)]

/-- `memcpy(dst + dstOff, src + srcOff, n)` between distinct buffers. -/
def copy (dst : Buf) (dstOff : Nat) (src : Buf) (srcOff n : Nat) : Buf := fun i =>
  if dstOff ≤ i ∧ i < dstOff + n then src (srcOff + (i - dstOff)) else dst i

theorem copy_inside (dst src : Buf) (h : i < n) :
    dst.copy dstOff src srcOff n (dstOff + i) = src (srcOff + i) := by
  rw [copy, if_pos ⟨Nat.le_add_right _ _, by omega⟩, Nat.add_sub_cancel_left]

theorem copy_above (dst src : Buf) (h : dstOff + n ≤ i) :
    dst.copy dstOff src srcOff n i = dst i := by
  rw [copy, if_neg (by omega)]

end Buf

/-- The value of a byte read as an unsigned integer. -/
def Buf.nat (b : Buf) (i : Nat) : Nat := (b i).toNat

theorem Buf.nat_lt (b : Buf) (i : Nat) : b.nat i < 256 := (b i).toNat_lt

def be16 (b : Buf) (i : Nat) : Nat := b.nat i * 2 ^ 8 + b.nat (i + 1)

def be32 (b : Buf) (i : Nat) : Nat :=
  b.nat i * 2 ^ 24 + b.nat (i + 1) * 2 ^ 16 + b.nat (i + 2) * 2 ^ 8 + b.nat (i + 3)

def le16 (b : Buf) (i : Nat) : Nat := b.nat (i + 1) * 2 ^ 8 + b.nat i

def le32 (b : Buf) (i : Nat) : Nat :=
  b.nat (i + 3) * 2 ^ 24 + b.nat (i + 2) * 2 ^ 16 + b.nat (i + 1) * 2 ^ 8 + b.nat i

theorem be32_lt (b : Buf) (i : Nat) : be32 b i < 2 ^ 32 := by
  have h0 := b.nat_lt i
  have h1 := b.nat_lt (i + 1)
  have h2 := b.nat_lt (i + 2)
  have h3 := b.nat_lt (i + 3)
  rw [be32]
  omega

theorem le32_lt (b : Buf) (i : Nat) : le32 b i < 2 ^ 32 := by
  have h0 := b.nat_lt i
  have h1 := b.nat_lt (i + 1)
  have h2 := b.nat_lt (i + 2)
  have h3 := b.nat_lt (i + 3)
  rw [le32]
  omega

theorem be32_congr {b c : Buf} (h : ∀ j, j < 4 → b (i + j) = c (i + j)) :
    be32 b i = be32 c i := by
  have h0 : b i = c i := h 0 (by decide)
  simp only [be32, Buf.nat, h0, h 1 (by decide), h 2 (by decide), h 3 (by decide)]

theorem le32_congr {b c : Buf} (h : ∀ j, j < 4 → b (i + j) = c (i + j)) :
    le32 b i = le32 c i := by
  have h0 : b i = c i := h 0 (by decide)
  simp only [le32, Buf.nat, h0, h 1 (by decide), h 2 (by decide), h 3 (by decide)]

end Pegasos2
