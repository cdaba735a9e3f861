import Pegasos2.Bytes
import Mathlib.Data.Nat.Bitwise

namespace Pegasos2.Pci
set_option autoImplicit true

abbrev Word := BitVec 32

/-- A dword register of configuration space: its value, the bits that a write sets and the
bits that a written one clears. All other bits ignore writes. -/
structure Reg where
  val : Word
  rw : Word
  w1c : Word

def Reg.write (r : Reg) (v : Word) : Reg :=
  { r with val := (r.val &&& ~~~r.rw &&& ~~~(r.w1c &&& v)) ||| (v &&& r.rw) }

@[simp] theorem Reg.write_rw (r : Reg) (v : Word) : (r.write v).rw = r.rw := rfl

@[simp] theorem Reg.write_w1c (r : Reg) (v : Word) : (r.write v).w1c = r.w1c := rfl

/-- The configuration space of one function, by dword number. -/
abbrev Config := Nat → Reg

/-- Configuration accesses to one function: what `host`, `bus`, `dev` and `fn` select in the
accessors of the host bridge. -/
structure CfgAccess (σ : Type) where
  read32 : σ → Nat → Word
  write32 : σ → Nat → Word → σ

/-- The dword that holds a register. Register offsets are bytes. -/
def dword (reg : Nat) : Nat := reg % 256 / 4

def Config.write (c : Config) (k : Nat) (v : Word) : Config :=
  Function.update c k ((c k).write v)

def funcAccess : CfgAccess Config where
  read32 c reg := (c (dword reg)).val
  write32 c reg v := c.write (dword reg) v

/-- Byte lane `k` of a dword. -/
def byteOf (v : Word) (k : Nat) : BitVec 8 := (v >>> (8 * k)).setWidth 8

/-- Half-word lane `k` of a dword. -/
def halfOf (v : Word) (k : Nat) : BitVec 16 := (v >>> (16 * k)).setWidth 16

def setByte (v : Word) (k : Nat) (b : BitVec 8) : Word :=
  (v &&& ~~~(0xFF#32 <<< (8 * k))) ||| (b.setWidth 32 <<< (8 * k))

def setHalf (v : Word) (k : Nat) (b : BitVec 16) : Word :=
  (v &&& ~~~(0xFFFF#32 <<< (16 * k))) ||| (b.setWidth 32 <<< (16 * k))

def pciCfgRead16 (acc : CfgAccess σ) (s : σ) (reg : Nat) : BitVec 16 :=
  halfOf (acc.read32 s reg) (reg % 4 / 2)

def pciCfgRead8 (acc : CfgAccess σ) (s : σ) (reg : Nat) : BitVec 8 :=
  byteOf (acc.read32 s reg) (reg % 4)

def pciCfgWrite8 (acc : CfgAccess σ) (s : σ) (reg : Nat) (v : BitVec 8) : σ :=
  acc.write32 s reg (setByte (acc.read32 s reg) (reg % 4) v)

def pciCfgWrite16 (acc : CfgAccess σ) (s : σ) (reg : Nat) (v : BitVec 16) : σ :=
  acc.write32 s reg (setHalf (acc.read32 s reg) (reg % 4 / 2) v)

/-- `f` turns cycles of `a` into cycles of `b`. -/
structure CfgAccess.Hom (a : CfgAccess τ) (b : CfgAccess σ) (f : τ → σ) : Prop where
  read32 : ∀ s reg, b.read32 (f s) reg = a.read32 s reg
  write32 : ∀ s reg v, b.write32 (f s) reg v = f (a.write32 s reg v)

namespace CfgAccess.Hom

variable {a : CfgAccess τ} {b : CfgAccess σ} {f : τ → σ}

theorem read16 (h : a.Hom b f) (s : τ) (reg : Nat) :
    pciCfgRead16 b (f s) reg = pciCfgRead16 a s reg := by
  rw [pciCfgRead16, h.read32, pciCfgRead16]

theorem read8 (h : a.Hom b f) (s : τ) (reg : Nat) :
    pciCfgRead8 b (f s) reg = pciCfgRead8 a s reg := by
  rw [pciCfgRead8, h.read32, pciCfgRead8]

theorem write8 (h : a.Hom b f) (s : τ) (reg : Nat) (v : BitVec 8) :
    pciCfgWrite8 b (f s) reg v = f (pciCfgWrite8 a s reg v) := by
  rw [pciCfgWrite8, h.read32, h.write32, pciCfgWrite8]

theorem write16 (h : a.Hom b f) (s : τ) (reg : Nat) (v : BitVec 16) :
    pciCfgWrite16 b (f s) reg v = f (pciCfgWrite16 a s reg v) := by
  rw [pciCfgWrite16, h.read32, h.write32, pciCfgWrite16]

end CfgAccess.Hom

theorem getLsbD_0xFF (i : Nat) : (0xFF#32).getLsbD i = decide (i < 8) := by
  rw [show (0xFF#32) = BitVec.ofNat 32 (2 ^ 8 - 1) from rfl, BitVec.getLsbD_ofNat,
    Nat.testBit_two_pow_sub_one]
  by_cases h : i < 8
  · simp only [h, decide_true, Bool.and_true, decide_eq_true_eq]
    omega
  · simp only [h, decide_false, Bool.and_false]

theorem getLsbD_0xFFFF (i : Nat) : (0xFFFF#32).getLsbD i = decide (i < 16) := by
  rw [show (0xFFFF#32) = BitVec.ofNat 32 (2 ^ 16 - 1) from rfl, BitVec.getLsbD_ofNat,
    Nat.testBit_two_pow_sub_one]
  by_cases h : i < 16
  · simp only [h, decide_true, Bool.and_true, decide_eq_true_eq]
    omega
  · simp only [h, decide_false, Bool.and_false]

theorem getLsbD_byteOf (v : Word) (k i : Nat) :
    (byteOf v k).getLsbD i = (decide (i < 8) && v.getLsbD (8 * k + i)) := by
  rw [byteOf, BitVec.getLsbD_setWidth, BitVec.getLsbD_ushiftRight]

theorem getLsbD_halfOf (v : Word) (k i : Nat) :
    (halfOf v k).getLsbD i = (decide (i < 16) && v.getLsbD (16 * k + i)) := by
  rw [halfOf, BitVec.getLsbD_setWidth, BitVec.getLsbD_ushiftRight]

theorem getLsbD_setByte (v : Word) (b : BitVec 8) (hi : i < 32) :
    (setByte v k b).getLsbD i =
      if 8 * k ≤ i ∧ i < 8 * k + 8 then b.getLsbD (i - 8 * k) else v.getLsbD i := by
  rw [setByte, BitVec.getLsbD_or, BitVec.getLsbD_and, BitVec.getLsbD_not,
    BitVec.getLsbD_shiftLeft, BitVec.getLsbD_shiftLeft, getLsbD_0xFF, BitVec.getLsbD_setWidth]
  by_cases hlo : i < 8 * k
  · rw [if_neg (by omega)]
    simp [hi, hlo]
  · by_cases hhi : i < 8 * k + 8
    · rw [if_pos (by omega)]
      have hlt : i - 8 * k < 8 := by omega
      simp [hi, hlo, hlt]
      intro _
      omega
    · rw [if_neg (by omega)]
      have hge : ¬ i - 8 * k < 8 := by omega
      have hout : b.getLsbD (i - 8 * k) = false := BitVec.getLsbD_of_ge _ _ (by omega)
      simp [hi, hlo, hge, hout]

theorem getLsbD_setHalf (v : Word) (b : BitVec 16) (hi : i < 32) :
    (setHalf v k b).getLsbD i =
      if 16 * k ≤ i ∧ i < 16 * k + 16 then b.getLsbD (i - 16 * k) else v.getLsbD i := by
  rw [setHalf, BitVec.getLsbD_or, BitVec.getLsbD_and, BitVec.getLsbD_not,
    BitVec.getLsbD_shiftLeft, BitVec.getLsbD_shiftLeft, getLsbD_0xFFFF,
    BitVec.getLsbD_setWidth]
  by_cases hlo : i < 16 * k
  · rw [if_neg (by omega)]
    simp [hi, hlo]
  · by_cases hhi : i < 16 * k + 16
    · rw [if_pos (by omega)]
      have hlt : i - 16 * k < 16 := by omega
      simp [hi, hlo, hlt]
      intro _
      omega
    · rw [if_neg (by omega)]
      have hge : ¬ i - 16 * k < 16 := by omega
      have hout : b.getLsbD (i - 16 * k) = false := BitVec.getLsbD_of_ge _ _ (by omega)
      simp [hi, hlo, hge, hout]

theorem Reg.getLsbD_write (r : Reg) (v : Word) (i : Nat) :
    (r.write v).val.getLsbD i =
      if r.rw.getLsbD i then v.getLsbD i
      else (r.val.getLsbD i && !(r.w1c.getLsbD i && v.getLsbD i)) := by
  by_cases hi : i < 32
  · simp only [Reg.write, BitVec.getLsbD_or, BitVec.getLsbD_and, BitVec.getLsbD_not, hi,
      decide_true, Bool.true_and]
    cases r.rw.getLsbD i <;> simp
  · have hout : ∀ w : Word, w.getLsbD i = false := fun w => BitVec.getLsbD_of_ge _ _ (by omega)
    simp only [hout, Bool.false_eq_true, if_false, Bool.false_and]

theorem Config.write_same (c : Config) (k : Nat) (v : Word) : c.write k v k = (c k).write v := by
  rw [Config.write, Function.update_self]

theorem Config.write_ne (c : Config) (v : Word) (h : j ≠ k) : c.write k v j = c j := by
  rw [Config.write, Function.update_of_ne h]

theorem Config.write_rw (c : Config) (k : Nat) (v : Word) (j : Nat) :
    (c.write k v j).rw = (c j).rw := by
  by_cases h : j = k
  · rw [h, Config.write_same, Reg.write_rw]
  · rw [Config.write_ne c v h]

/-- A byte write sets the writable bits of its own lane and leaves those of the others. -/
theorem read8_write8 (c : Config) (reg reg' : Nat) (m v : BitVec 8) (hd : dword reg = dword reg')
    (hrw : ∀ i, i < 8 → m.getLsbD i → (c (dword reg)).rw.getLsbD (8 * (reg % 4) + i)) :
    pciCfgRead8 funcAccess (pciCfgWrite8 funcAccess c reg' v) reg &&& m =
      (if reg % 4 = reg' % 4 then v else pciCfgRead8 funcAccess c reg) &&& m := by
  apply BitVec.eq_of_getLsbD_eq
  intro i hi
  rw [BitVec.getLsbD_and, BitVec.getLsbD_and]
  cases hm : m.getLsbD i with
  | false => rw [Bool.and_false, Bool.and_false]
  | true =>
    have hlane : reg % 4 < 4 := Nat.mod_lt _ (by decide)
    rw [Bool.and_true, Bool.and_true, pciCfgRead8, getLsbD_byteOf, pciCfgWrite8]
    simp only [funcAccess, hd]
    rw [Config.write_same, Reg.getLsbD_write, if_pos (hd ▸ hrw i hi hm),
      getLsbD_setByte _ _ (by omega)]
    by_cases he : reg % 4 = reg' % 4
    · rw [if_pos (by omega), if_pos he, he, Nat.add_sub_cancel_left, decide_eq_true hi,
        Bool.true_and]
    · rw [if_neg (by omega), if_neg he, pciCfgRead8, getLsbD_byteOf]
      simp only [hd]

theorem read16_write16 (c : Config) (reg reg' : Nat) (m v : BitVec 16) (hd : dword reg = dword reg')
    (hrw : ∀ i, i < 16 → m.getLsbD i →
      (c (dword reg)).rw.getLsbD (16 * (reg % 4 / 2) + i)) :
    pciCfgRead16 funcAccess (pciCfgWrite16 funcAccess c reg' v) reg &&& m =
      (if reg % 4 / 2 = reg' % 4 / 2 then v else pciCfgRead16 funcAccess c reg) &&& m := by
  apply BitVec.eq_of_getLsbD_eq
  intro i hi
  rw [BitVec.getLsbD_and, BitVec.getLsbD_and]
  cases hm : m.getLsbD i with
  | false => rw [Bool.and_false, Bool.and_false]
  | true =>
    have hlane : reg % 4 / 2 < 2 := by omega
    rw [Bool.and_true, Bool.and_true, pciCfgRead16, getLsbD_halfOf, pciCfgWrite16]
    simp only [funcAccess, hd]
    rw [Config.write_same, Reg.getLsbD_write, if_pos (hd ▸ hrw i hi hm),
      getLsbD_setHalf _ _ (by omega)]
    by_cases he : reg % 4 / 2 = reg' % 4 / 2
    · rw [if_pos (by omega), if_pos he, he, Nat.add_sub_cancel_left, decide_eq_true hi,
        Bool.true_and]
    · rw [if_neg (by omega), if_neg he, pciCfgRead16, getLsbD_halfOf]
      simp only [hd]

/-- `c'` comes from `c` by writes to the dwords of `ks`. -/
structure Touches (ks : List Nat) (c c' : Config) : Prop where
  frame : ∀ k, k ∉ ks → c' k = c k
  rw_eq : ∀ k, (c' k).rw = (c k).rw

namespace Touches

theorem refl (ks : List Nat) (c : Config) : Touches ks c c := ⟨fun _ _ => rfl, fun _ => rfl⟩

theorem trans (h : Touches ks c₁ c₂) (h' : Touches ks c₂ c₃) : Touches ks c₁ c₃ :=
  ⟨fun k hk => (h'.frame k hk).trans (h.frame k hk), fun k => (h'.rw_eq k).trans (h.rw_eq k)⟩

theorem mono (h : Touches ks c c') (hsub : ks ⊆ ks') : Touches ks' c c' :=
  ⟨fun k hk => h.frame k (fun hin => hk (hsub hin)), h.rw_eq⟩

theorem write (c : Config) (v : Word) (hk : k ∈ ks) : Touches ks c (c.write k v) := by
  exact ⟨fun j hj => Config.write_ne c v (fun he => hj (he ▸ hk)), Config.write_rw c k v⟩

end Touches
end Pegasos2.Pci
