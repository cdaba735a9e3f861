import Pegasos2.Bytes
import Pegasos2.Examine

namespace Pegasos2
open Program Look
set_option autoImplicit true

def lookNat (i : Nat) : Look UInt8 Nat := UInt8.toNat <$> peek i

def lookBe16 (i : Nat) : Look UInt8 Nat := do
  let b₀ ← lookNat i
  let b₁ ← lookNat (i + 1)
  pure (b₀ * 2 ^ 8 + b₁)

def lookBe32 (i : Nat) : Look UInt8 Nat := do
  let b₀ ← lookNat i
  let b₁ ← lookNat (i + 1)
  let b₂ ← lookNat (i + 2)
  let b₃ ← lookNat (i + 3)
  pure (b₀ * 2 ^ 24 + b₁ * 2 ^ 16 + b₂ * 2 ^ 8 + b₃)

def lookLe16 (i : Nat) : Look UInt8 Nat := do
  let b₀ ← lookNat i
  let b₁ ← lookNat (i + 1)
  pure (b₁ * 2 ^ 8 + b₀)

def lookLe32 (i : Nat) : Look UInt8 Nat := do
  let b₀ ← lookNat i
  let b₁ ← lookNat (i + 1)
  let b₂ ← lookNat (i + 2)
  let b₃ ← lookNat (i + 3)
  pure (b₃ * 2 ^ 24 + b₂ * 2 ^ 16 + b₁ * 2 ^ 8 + b₀)

theorem reads_nat (b : Buf) (h : i < n) : Reads n b (lookNat i) (b.nat i) := (Reads.peek b h).map _

theorem reads_be16 (b : Buf) (h : i + 2 ≤ n) : Reads n b (lookBe16 i) (be16 b i) :=
  (reads_nat b (by omega)).bind ((reads_nat b (by omega)).bind (.pure n b _))

theorem reads_be32 (b : Buf) (h : i + 4 ≤ n) : Reads n b (lookBe32 i) (be32 b i) :=
  (reads_nat b (by omega)).bind ((reads_nat b (by omega)).bind ((reads_nat b (by omega)).bind
    ((reads_nat b (by omega)).bind (.pure n b _))))

theorem reads_le16 (b : Buf) (h : i + 2 ≤ n) : Reads n b (lookLe16 i) (le16 b i) :=
  (reads_nat b (by omega)).bind ((reads_nat b (by omega)).bind (.pure n b _))

theorem reads_le32 (b : Buf) (h : i + 4 ≤ n) : Reads n b (lookLe32 i) (le32 b i) :=
  (reads_nat b (by omega)).bind ((reads_nat b (by omega)).bind ((reads_nat b (by omega)).bind
    ((reads_nat b (by omega)).bind (.pure n b _))))

theorem inside_nat {b : Buf} : Inside n b (lookNat i) ↔ i < n :=
  inside_bind.trans ((and_iff_left (inside_pure n b _)).trans inside_peek)

@[simp] theorem run_be16 (b : Buf) (i : Nat) : (lookBe16 i).run b = be16 b i :=
  (reads_be16 b (Nat.le_refl _)).2

@[simp] theorem run_be32 (b : Buf) (i : Nat) : (lookBe32 i).run b = be32 b i :=
  (reads_be32 b (Nat.le_refl _)).2

theorem inside_be16 {b : Buf} : Inside n b (lookBe16 i) ↔ i + 2 ≤ n := by
  refine ⟨fun h => ?_, fun h => (reads_be16 b h).1⟩
  exact inside_nat.1 (inside_bind.1 (inside_bind.1 h).2).1

theorem inside_be32 {b : Buf} : Inside n b (lookBe32 i) ↔ i + 4 ≤ n := by
  refine ⟨fun h => ?_, fun h => (reads_be32 b h).1⟩
  have hlast := (inside_bind.1 (inside_bind.1 (inside_bind.1 (inside_bind.1 h).2).2).2).1
  exact inside_nat.1 hlast

end Pegasos2
