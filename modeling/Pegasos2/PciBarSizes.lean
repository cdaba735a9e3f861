import Pegasos2.PciBars

namespace Pegasos2.Pci
set_option autoImplicit true

/-- What a register can be: a memory, I/O or expansion ROM BAR of `2 ^ k` bytes. An I/O BAR decodes
32 address bits or 16. -/
inductive BarKind where
  | unimplemented
  | mem32 (pref : Bool) (k : Nat)
  | mem64 (pref : Bool) (k : Nat)
  | io32 (k : Nat)
  | io16 (k : Nat)
  | rom (k : Nat)
  deriving DecidableEq, Repr

namespace BarKind

def size : BarKind → Nat
  | unimplemented => 0
  | mem32 _ k => 2 ^ k
  | mem64 _ k => 2 ^ k
  | io32 k => 2 ^ k
  | io16 k => 2 ^ k
  | rom k => 2 ^ k

def Valid : BarKind → Prop
  | unimplemented => True
  | mem32 _ k => 4 ≤ k ∧ k < 32
  | mem64 _ k => 4 ≤ k ∧ k < 64
  | io32 k => 2 ≤ k ∧ k < 32
  | io16 k => 2 ≤ k ∧ k < 16
  | rom k => 11 ≤ k ∧ k < 32

def is64 : BarKind → Bool
  | mem64 _ _ => true
  | _ => false

def isRom : BarKind → Bool
  | rom _ => true
  | _ => false

/-- The address bits that are decoded. -/
def decoded : BarKind → Nat
  | unimplemented => 0
  | mem32 _ k => 2 ^ 32 - 2 ^ k
  | mem64 _ k => 2 ^ 64 - 2 ^ k
  | io32 k => 2 ^ 32 - 2 ^ k
  | io16 k => 2 ^ 16 - 2 ^ k
  | rom k => 2 ^ 32 - 2 ^ k

/-- The fixed bits of the register: those of its type. -/
def fixed : BarKind → Word
  | mem32 pref _ => if pref then 0x8#32 else 0#32
  | mem64 pref _ => if pref then 0xC#32 else 0x4#32
  | io32 _ => 0x1#32
  | io16 _ => 0x1#32
  | _ => 0#32

/-- The bits that can be written: the address, and the enable bit of a ROM. -/
def rw (kind : BarKind) : Word :=
  BitVec.ofNat 32 kind.decoded ||| (if kind.isRom then 0x1#32 else 0#32)

def slots (kind : BarKind) : Nat := if kind.is64 then 2 else 1

end BarKind

structure HasBits (r : Reg) (rw fixed : Word) : Prop where
  w1c : r.w1c = 0#32
  rw_eq : r.rw = rw
  val : r.val &&& ~~~rw = fixed

/-- A BAR in the dword `d`, and in the next one if it has 64 bits. Its current value is any. -/
structure Conforms (kind : BarKind) (c : Config) (d : Nat) : Prop where
  valid : kind.Valid
  low : HasBits (c d) kind.rw kind.fixed
  high : kind.is64 → HasBits (c (d + 1)) (BitVec.ofNat 32 (kind.decoded / 2 ^ 32)) 0#32

/-- The slots from `i` on hold the listed BARs. -/
inductive BarsAt (c : Config) (nb : Nat) : Nat → List (Nat × BarKind) → Prop
  | done (hi : nb ≤ i) : BarsAt c nb i []
  | bar (hi : i + kind.slots ≤ nb) (hrom : kind.isRom = false) (hbar : Conforms kind c (4 + i))
      (hrest : BarsAt c nb (i + kind.slots) l) : BarsAt c nb i ((i, kind) :: l)

/-- A function whose BARs and ROM are conformant. -/
structure BarFunction where
  cfg : Config
  bars : List (Nat × BarKind)
  layout : BarsAt cfg (numBars (headerType cfg)) 0 bars
  romKind : BarKind
  romKind_eq : romKind.isRom ∨ romKind = .unimplemented
  romReg : Conforms romKind cfg (dword (romOffset (headerType cfg)))

/-- The slots that the rounds of the BAR loop are about. -/
def barSlots (acc : CfgAccess σ) (loc : Loc) (numBars : Nat) : Nat → Nat → Bars σ → List Nat
  | 0, _, _ => []
  | n + 1, i, b =>
    if i < numBars then
      let r := barStep acc loc i b
      i :: barSlots acc loc numBars n r.2 r.1
    else []

/-- The probe leaves the registers as they were, returns the size if it fits into 32 bits, and 0
only without a BAR or for one too large, and tells a 64-bit BAR. -/
def ProbesRight (kind : BarKind) (c : Config) (offset : Nat) (addrMask : Word) : Prop :=
  let r := pciBarProbe funcAccess c offset addrMask
  r.2 = c ∧ (kind.size < 2 ^ 32 → r.1.size.toNat = kind.size) ∧
    (r.1.size = 0#32 → kind.size = 0 ∨ 2 ^ 32 ≤ kind.size) ∧ r.1.is64 = kind.is64

namespace BarFunction

/-- The probe of the BAR in a slot. -/
def SlotRight (f : BarFunction) (p : Nat × BarKind) : Prop :=
  ProbesRight p.2 f.cfg (0x10 + p.1 * 4) (barAddrMask (isIo (f.cfg (4 + p.1)).val))

/-- All BARs and the ROM are probed right, and the loop goes from each BAR to the next. -/
structure Right (f : BarFunction) : Prop where
  bars : ∀ p ∈ f.bars, f.SlotRight p
  rom : ProbesRight f.romKind f.cfg (romOffset (headerType f.cfg)) romMask
  slots : ∀ loc b, b.walk.cfg = f.cfg →
    barSlots funcAccess loc (numBars (headerType f.cfg)) (numBars (headerType f.cfg)) 0 b =
      f.bars.map Prod.fst

end BarFunction

/-- No I/O BAR that decodes 16 bits only, and none that leaves its lower dword without address
bits. -/
def BarKind.Sizable : BarKind → Prop
  | .io16 _ => False
  | .mem64 _ k => k < 32
  | _ => True

theorem two_pow_sub_eq (h : k ≤ w) : 2 ^ w - 2 ^ k = 2 ^ k * (2 ^ (w - k) - 1) := by
  rw [Nat.mul_sub, ← Nat.pow_add, Nat.add_sub_cancel' h, Nat.mul_one]

theorem getLsbD_decoded (h : k ≤ w) (i : Nat) :
    (BitVec.ofNat 32 (2 ^ w - 2 ^ k)).getLsbD i =
      (decide (i < 32) && (decide (k ≤ i) && decide (i < w))) := by
  rw [BitVec.getLsbD_ofNat, two_pow_sub_eq h, Nat.testBit_two_pow_mul,
    Nat.testBit_two_pow_sub_one]
  by_cases hk : k ≤ i
  · have hiff : i - k < w - k ↔ i < w := by omega
    simp only [hiff]
  · simp [hk]

theorem decoded_and_eq_zero (hkw : k ≤ w) (hk : n ≤ k) {m : Word}
    (hm : ∀ i, n ≤ i → m.getLsbD i = false) : BitVec.ofNat 32 (2 ^ w - 2 ^ k) &&& m = 0#32 := by
  apply BitVec.eq_of_getLsbD_eq
  intro i _
  rw [BitVec.getLsbD_and, getLsbD_decoded hkw, BitVec.getLsbD_zero]
  by_cases hi : n ≤ i
  · rw [hm i hi, Bool.and_false]
  · have hki : ¬ k ≤ i := by omega
    simp [hki]

namespace HasBits

theorem val_and (h : HasBits r rw fixed) {m : Word} (hm : rw &&& m = 0#32) :
    r.val &&& m = fixed &&& m := by
  rw [← h.val]
  apply BitVec.eq_of_getLsbD_eq
  intro i hi
  have hbit : (rw &&& m).getLsbD i = false := by rw [hm, BitVec.getLsbD_zero]
  simp only [BitVec.getLsbD_and, BitVec.getLsbD_not, hi, decide_true, Bool.true_and] at hbit ⊢
  cases hmi : m.getLsbD i with
  | false => simp
  | true =>
    rw [hmi, Bool.and_true] at hbit
    rw [hbit]
    simp

theorem barReg (h : HasBits r rw fixed) (hfixed : fixed &&& addrMask = 0#32) :
    BarReg r addrMask := by
  refine ⟨h.w1c, ?_⟩
  rw [h.rw_eq, h.val, hfixed]

end HasBits

namespace BarKind

/-- The number of bits below the address. -/
def lowBits : BarKind → Nat
  | io32 _ => 2
  | io16 _ => 2
  | rom _ => 11
  | _ => 4

/-- The address bits that the walker probes. -/
def addrMask : BarKind → Word
  | io32 _ => 0xFFFFFFFC#32
  | io16 _ => 0xFFFFFFFC#32
  | rom _ => romMask
  | _ => 0xFFFFFFF0#32

theorem addrMask_eq (kind : BarKind) :
    kind.addrMask = BitVec.ofNat 32 (2 ^ 32 - 2 ^ kind.lowBits) := by
  cases kind with
  | io32 k => exact (by decide : 0xFFFFFFFC#32 = BitVec.ofNat 32 (2 ^ 32 - 2 ^ 2))
  | io16 k => exact (by decide : 0xFFFFFFFC#32 = BitVec.ofNat 32 (2 ^ 32 - 2 ^ 2))
  | rom k => exact (by decide : 0xFFFFF800#32 = BitVec.ofNat 32 (2 ^ 32 - 2 ^ 11))
  | _ => exact (by decide : 0xFFFFFFF0#32 = BitVec.ofNat 32 (2 ^ 32 - 2 ^ 4))

theorem decoded_eq (hv : Valid kind) (hne : kind ≠ unimplemented) :
    ∃ w k, kind.decoded = 2 ^ w - 2 ^ k ∧ kind.lowBits ≤ k ∧ k < w := by
  cases kind with
  | unimplemented => exact absurd rfl hne
  | mem32 pref k => exact ⟨32, k, rfl, hv.1, hv.2⟩
  | mem64 pref k => exact ⟨64, k, rfl, hv.1, hv.2⟩
  | io32 k => exact ⟨32, k, rfl, hv.1, hv.2⟩
  | io16 k => exact ⟨16, k, rfl, hv.1, hv.2⟩
  | rom k => exact ⟨32, k, rfl, hv.1, hv.2⟩

theorem lowBits_le (kind : BarKind) : 2 ≤ kind.lowBits ∧ kind.lowBits ≤ 32 := by
  cases kind with
  | io32 k => exact (by decide : 2 ≤ 2 ∧ 2 ≤ 32)
  | io16 k => exact (by decide : 2 ≤ 2 ∧ 2 ≤ 32)
  | rom k => exact (by decide : 2 ≤ 11 ∧ 11 ≤ 32)
  | _ => exact (by decide : 2 ≤ 4 ∧ 4 ≤ 32)

theorem rw_and_addrMask (hv : Valid kind) :
    kind.rw &&& kind.addrMask = BitVec.ofNat 32 kind.decoded := by
  by_cases hne : kind = unimplemented
  · subst hne
    decide
  · obtain ⟨w, k, hdec, hlow, hkw⟩ := decoded_eq hv hne
    have henable : (if kind.isRom then 0x1#32 else 0#32) &&& kind.addrMask = 0#32 := by
      cases kind with
      | rom k => exact (by decide : 0x1#32 &&& 0xFFFFF800#32 = 0#32)
      | _ => exact BitVec.zero_and
    rw [rw, BitVec.and_or_distrib_right, henable, BitVec.or_zero, hdec]
    apply BitVec.eq_of_getLsbD_eq
    intro i hi
    rw [BitVec.getLsbD_and, addrMask_eq, getLsbD_decoded hkw.le, getLsbD_decoded kind.lowBits_le.2]
    by_cases hki : k ≤ i
    · have hli : kind.lowBits ≤ i := hlow.trans hki
      simp [hi, hli]
    · simp [hki]

theorem fixed_and_addrMask (kind : BarKind) : kind.fixed &&& kind.addrMask = 0#32 := by
  cases kind with
  | mem32 pref k =>
    cases pref with
    | false => exact BitVec.zero_and
    | true => exact (by decide : 0x8#32 &&& 0xFFFFFFF0#32 = 0#32)
  | mem64 pref k =>
    cases pref with
    | false => exact (by decide : 0x4#32 &&& 0xFFFFFFF0#32 = 0#32)
    | true => exact (by decide : 0xC#32 &&& 0xFFFFFFF0#32 = 0#32)
  | io32 k => exact (by decide : 0x1#32 &&& 0xFFFFFFFC#32 = 0#32)
  | io16 k => exact (by decide : 0x1#32 &&& 0xFFFFFFFC#32 = 0#32)
  | _ => exact BitVec.zero_and

/-- The bits below the address cannot be written, but for the enable bit of a ROM. -/
theorem rw_and_low (hv : Valid kind) {m : Word} (hm : ∀ i, kind.lowBits ≤ i → m.getLsbD i = false)
    (hrom : kind.isRom → 0x1#32 &&& m = 0#32) : kind.rw &&& m = 0#32 := by
  by_cases hne : kind = unimplemented
  · subst hne
    exact BitVec.zero_and
  · obtain ⟨w, k, hdec, hlow, hkw⟩ := decoded_eq hv hne
    rw [rw, BitVec.and_or_distrib_right, hdec, decoded_and_eq_zero hkw.le hlow hm, BitVec.zero_or]
    by_cases h : kind.isRom = true
    · rw [if_pos h, hrom h]
    · rw [if_neg h, BitVec.zero_and]

end BarKind

theorem getLsbD_small {n : Nat} {m : Word} (hm : m.toNat < 2 ^ n) (i : Nat) (hi : n ≤ i) :
    m.getLsbD i = false := by
  rw [← BitVec.testBit_toNat]
  exact Nat.testBit_lt_two_pow (hm.trans_le (Nat.pow_le_pow_right (by decide) hi))

namespace HasBits

variable {kind : BarKind}

theorem val_low (h : HasBits r kind.rw kind.fixed) (hv : kind.Valid) {m : Word}
    (hm : m.toNat < 2 ^ kind.lowBits) (hrom : kind.isRom → 0x1#32 &&& m = 0#32) :
    r.val &&& m = kind.fixed &&& m :=
  h.val_and (kind.rw_and_low hv (getLsbD_small hm) hrom)

theorem isIo_eq (h : HasBits r kind.rw kind.fixed) (hv : kind.Valid)
    (hrom : kind.isRom = false) : barAddrMask (isIo r.val) = kind.addrMask := by
  have hlow : 2 ^ 2 ≤ 2 ^ kind.lowBits := Nat.pow_le_pow_right (by decide) kind.lowBits_le.1
  have hbit := h.val_low hv (m := 0x1#32) (Nat.lt_of_lt_of_le (by decide) hlow) fun hr =>
    absurd (hrom.symm.trans hr) Bool.false_ne_true
  rw [isIo, hbit]
  cases kind with
  | mem32 pref k =>
    cases pref with
    | false => exact (by decide : barAddrMask (0#32 &&& 0x1#32 != 0#32) = 0xFFFFFFF0#32)
    | true => exact (by decide : barAddrMask (0x8#32 &&& 0x1#32 != 0#32) = 0xFFFFFFF0#32)
  | mem64 pref k =>
    cases pref with
    | false => exact (by decide : barAddrMask (0x4#32 &&& 0x1#32 != 0#32) = 0xFFFFFFF0#32)
    | true => exact (by decide : barAddrMask (0xC#32 &&& 0x1#32 != 0#32) = 0xFFFFFFF0#32)
  | io32 k => exact (by decide : barAddrMask (0x1#32 &&& 0x1#32 != 0#32) = 0xFFFFFFFC#32)
  | io16 k => exact (by decide : barAddrMask (0x1#32 &&& 0x1#32 != 0#32) = 0xFFFFFFFC#32)
  | rom k => exact absurd hrom (Bool.noConfusion ·)
  | unimplemented => exact (by decide : barAddrMask (0#32 &&& 0x1#32 != 0#32) = 0xFFFFFFF0#32)

theorem wide_eq (h : HasBits r kind.rw kind.fixed) (hv : kind.Valid) : wide r.val = kind.is64 := by
  -- an I/O BAR differs from a 64-bit one in bit 0, all others in the bits 1 and 2
  cases kind with
  | io32 k =>
    have hbit := h.val_low hv (by decide : (0x1#32).toNat < 2 ^ 2) (absurd · Bool.false_ne_true)
    have hio : ((BarKind.io32 k).fixed &&& 0x1#32 == 0#32) = false :=
      (by decide : (0x1#32 &&& 0x1#32 == 0#32) = false)
    rw [wide, hbit, hio, Bool.false_and]
    rfl
  | io16 k =>
    have hbit := h.val_low hv (by decide : (0x1#32).toNat < 2 ^ 2) (absurd · Bool.false_ne_true)
    have hio : ((BarKind.io16 k).fixed &&& 0x1#32 == 0#32) = false :=
      (by decide : (0x1#32 &&& 0x1#32 == 0#32) = false)
    rw [wide, hbit, hio, Bool.false_and]
    rfl
  | mem64 pref k =>
    have hbit := h.val_low hv (by decide : (0x1#32).toNat < 2 ^ 4) (absurd · Bool.false_ne_true)
    have hbits := h.val_low hv (by decide : (0x6#32).toNat < 2 ^ 4) (absurd · Bool.false_ne_true)
    rw [wide, hbit, hbits]
    cases pref with
    | false => exact (by decide : (0x4#32 &&& 0x1#32 == 0#32 && 0x4#32 &&& 0x6#32 == 0x4#32) = true)
    | true => exact (by decide : (0xC#32 &&& 0x1#32 == 0#32 && 0xC#32 &&& 0x6#32 == 0x4#32) = true)
  | mem32 pref k =>
    have hbits := h.val_low hv (by decide : (0x6#32).toNat < 2 ^ 4) (absurd · Bool.false_ne_true)
    have htype : ((BarKind.mem32 pref k).fixed &&& 0x6#32 == 0x4#32) = false := by
      cases pref with
      | false => exact (by decide : (0#32 &&& 0x6#32 == 0x4#32) = false)
      | true => exact (by decide : (0x8#32 &&& 0x6#32 == 0x4#32) = false)
    rw [wide, hbits, htype, Bool.and_false]
    rfl
  | rom k =>
    have hbits := h.val_low hv (by decide : (0x6#32).toNat < 2 ^ 11) fun _ => by decide
    have htype : ((BarKind.rom k).fixed &&& 0x6#32 == 0x4#32) = false :=
      (by decide : (0#32 &&& 0x6#32 == 0x4#32) = false)
    rw [wide, hbits, htype, Bool.and_false]
    rfl
  | unimplemented =>
    have hbits := h.val_low hv (by decide : (0x6#32).toNat < 2 ^ 4) (absurd · Bool.false_ne_true)
    have htype : (BarKind.unimplemented.fixed &&& 0x6#32 == 0x4#32) = false :=
      (by decide : (0#32 &&& 0x6#32 == 0x4#32) = false)
    rw [wide, hbits, htype, Bool.and_false]
    rfl

end HasBits

namespace Conforms

variable {kind : BarKind}

/-- The probe reads the decoded bits of the lower dword back and restores the register. -/
theorem probe (h : Conforms kind c (dword offset)) :
    ∃ flags, pciBarProbe funcAccess c offset kind.addrMask =
      (if kind.decoded % 2 ^ 32 = 0 then ⟨0#32, flags, false⟩
        else ⟨BitVec.ofNat 32 (2 ^ 32 - kind.decoded % 2 ^ 32), flags, kind.is64⟩, c) := by
  refine ⟨(c (dword offset)).val &&& ~~~kind.addrMask, ?_⟩
  have hmask : (c (dword offset)).rw &&& kind.addrMask = BitVec.ofNat 32 kind.decoded := by
    rw [h.low.rw_eq, kind.rw_and_addrMask h.valid]
  rw [pciBarProbe_eq c (h.low.barReg kind.fixed_and_addrMask), probeOf, hmask,
    h.low.wide_eq h.valid]
  have hnat : (BitVec.ofNat 32 kind.decoded).toNat = kind.decoded % 2 ^ 32 := BitVec.toNat_ofNat ..
  by_cases hz : kind.decoded % 2 ^ 32 = 0
  · have hzero : BitVec.ofNat 32 kind.decoded = 0#32 := BitVec.eq_of_toNat_eq (hnat.trans hz)
    rw [if_pos hz, if_pos hzero]
  · have hne : BitVec.ofNat 32 kind.decoded ≠ 0#32 := fun heq => by
      rw [heq] at hnat
      exact hz hnat.symm
    have hsize : ~~~BitVec.ofNat 32 kind.decoded + 1#32 =
        BitVec.ofNat 32 (2 ^ 32 - kind.decoded % 2 ^ 32) := by
      apply BitVec.eq_of_toNat_eq
      have hlt : 2 ^ 32 - kind.decoded % 2 ^ 32 < 2 ^ 32 := by omega
      rw [toNat_not_add_one hne, hnat, BitVec.toNat_ofNat, Nat.mod_eq_of_lt hlt]
    rw [if_neg hz, if_neg hne, hsize]

/-- A BAR of less than 4 GiB that decodes all address bits above its size in its lower dword. -/
theorem right (h : Conforms kind c (dword offset)) (hk : k < 32) (hsize : kind.size = 2 ^ k)
    (hdec : kind.decoded % 2 ^ 32 = 2 ^ 32 - 2 ^ k) :
    ProbesRight kind c offset kind.addrMask := by
  obtain ⟨flags, hprobe⟩ := h.probe
  have hpos := Nat.two_pow_pos k
  have hlt : 2 ^ k < 2 ^ 32 := Nat.pow_lt_pow_right (by decide) hk
  have hback : 2 ^ 32 - (2 ^ 32 - 2 ^ k) = 2 ^ k := Nat.sub_sub_self hlt.le
  rw [hdec, if_neg (by omega), hback] at hprobe
  have hnat : (BitVec.ofNat 32 (2 ^ k)).toNat = 2 ^ k := by
    rw [BitVec.toNat_ofNat, Nat.mod_eq_of_lt hlt]
  rw [ProbesRight, hprobe, hsize]
  refine ⟨rfl, fun _ => hnat, fun hz => ?_, rfl⟩
  have hzero := congrArg BitVec.toNat hz
  rw [hnat, BitVec.toNat_ofNat] at hzero
  omega

/-- A register without any bits is no BAR, whatever the probe takes for its address. -/
theorem right_unimplemented (h : Conforms .unimplemented c (dword offset)) (addrMask : Word) :
    ProbesRight .unimplemented c offset addrMask := by
  have hbits : (c (dword offset)).rw &&& addrMask = 0#32 := by
    rw [h.low.rw_eq]
    exact BitVec.zero_and
  rw [ProbesRight, pciBarProbe_eq c (h.low.barReg BitVec.zero_and), probeOf, if_pos hbits]
  exact ⟨rfl, fun _ => rfl, fun _ => .inl rfl, rfl⟩

/-- The probe of a BAR does what it should, except for I/O BARs that decode 16 bits and 64-bit BARs
of 4 GiB and more. -/
theorem right_iff (h : Conforms kind c (dword offset)) :
    ProbesRight kind c offset kind.addrMask ↔ kind.Sizable := by
  have hvalid := h.valid
  cases kind with
  | unimplemented => exact ⟨fun _ => trivial, fun _ => h.right_unimplemented _⟩
  | mem32 pref k =>
    have hlt : 2 ^ 32 - 2 ^ k < 2 ^ 32 := Nat.sub_lt (by decide) (Nat.two_pow_pos k)
    exact ⟨fun _ => trivial, fun _ => h.right hvalid.2 rfl (Nat.mod_eq_of_lt hlt)⟩
  | mem64 pref k =>
    have hpos := Nat.two_pow_pos k
    by_cases hk : k < 32
    · refine ⟨fun _ => hk, fun _ => h.right hk rfl ?_⟩
      have hlt : 2 ^ k < 2 ^ 32 := Nat.pow_lt_pow_right (by decide) hk
      rw [BarKind.decoded]
      omega
    · refine ⟨fun hright => ?_, fun hsizable => absurd hsizable hk⟩
      obtain ⟨flags, hprobe⟩ := h.probe
      have hpow : 2 ^ k = 2 ^ (k - 32) * 2 ^ 32 := by
        rw [← Nat.pow_add, Nat.sub_add_cancel (by omega)]
      have hlow : (BarKind.mem64 pref k).decoded % 2 ^ 32 = 0 := by
        rw [BarKind.decoded, hpow]
        omega
      rw [hlow, if_pos rfl] at hprobe
      rw [ProbesRight, hprobe] at hright
      exact absurd hright.2.2.2 Bool.false_ne_true
  | io32 k =>
    have hlt : 2 ^ 32 - 2 ^ k < 2 ^ 32 := Nat.sub_lt (by decide) (Nat.two_pow_pos k)
    exact ⟨fun _ => trivial, fun _ => h.right hvalid.2 rfl (Nat.mod_eq_of_lt hlt)⟩
  | io16 k =>
    refine ⟨fun hright => ?_, False.elim⟩
    obtain ⟨flags, hprobe⟩ := h.probe
    have hlt : 2 ^ k < 2 ^ 16 := Nat.pow_lt_pow_right (by decide) hvalid.2
    have hfits : 2 ^ 16 - 2 ^ k < 2 ^ 32 := Nat.lt_of_le_of_lt (Nat.sub_le _ _) (by decide)
    have hdec : (BarKind.io16 k).decoded % 2 ^ 32 = 2 ^ 16 - 2 ^ k := Nat.mod_eq_of_lt hfits
    rw [hdec, if_neg (by omega)] at hprobe
    rw [ProbesRight, hprobe] at hright
    have hsize := hright.2.1 (hlt.trans (by decide))
    rw [BarKind.size, BitVec.toNat_ofNat, Nat.mod_eq_of_lt (by omega)] at hsize
    omega
  | rom k =>
    have hlt : 2 ^ 32 - 2 ^ k < 2 ^ 32 := Nat.sub_lt (by decide) (Nat.two_pow_pos k)
    exact ⟨fun _ => trivial, fun _ => h.right hvalid.2 rfl (Nat.mod_eq_of_lt hlt)⟩

end Conforms

/-- The slots that the loop comes to, by the registers alone. -/
def slotsFrom (c : Config) (nb : Nat) : Nat → Nat → List Nat
  | 0, _ => []
  | n + 1, i => if i < nb then i :: slotsFrom c nb n (slotNext (c (4 + i)) i) else []

theorem slotsFrom_of_le (hi : nb ≤ i) : slotsFrom c nb n i = [] := by
  cases n with
  | zero => rfl
  | succ n => rw [slotsFrom, if_neg (by omega)]

theorem barSlots_eq (loc : Loc) (hregs : BarRegs c nb) (hnb : nb ≤ 6) (n i : Nat)
    (b : Bars Config) (hcfg : ∀ k, 4 + i ≤ k → b.walk.cfg k = c k) :
    barSlots funcAccess loc nb n i b = slotsFrom c nb n i := by
  induction n generalizing i b with
  | zero => rfl
  | succ n ih =>
    rw [slotsFrom, barSlots]
    by_cases hi : i < nb
    · obtain ⟨-, hnext, hkeep⟩ :=
        barStep_assigned loc b (by omega) (hregs i hi) (hcfg (4 + i) (Nat.le_refl _))
      have hle : i ≤ slotNext (c (4 + i)) i := by
        rw [slotNext]
        split <;> omega
      rw [if_pos hi, if_pos hi]
      simp only [hnext]
      rw [ih _ _ fun k hk => by rw [hkeep k hk, hcfg k (by omega)]]
    · rw [if_neg hi, if_neg hi]

/-- A 64-bit BAR has less than 4 GiB. -/
def BarKind.Narrow (kind : BarKind) : Prop := kind.is64 → kind.size < 2 ^ 32

theorem BarKind.Sizable.narrow {kind : BarKind} (h : kind.Sizable) : kind.Narrow := by
  cases kind with
  | mem64 pref k => exact fun _ => Nat.pow_lt_pow_right (by decide) h
  | _ => exact nofun

namespace Conforms

variable {kind : BarKind}

theorem slotNext_eq (h : Conforms kind c (4 + i)) (hrom : kind.isRom = false) :
    slotNext (c (4 + i)) i =
      if kind.decoded % 2 ^ 32 ≠ 0 ∧ kind.is64 = true then i + 2 else i + 1 := by
  have hmask : (c (4 + i)).rw &&& kind.addrMask = BitVec.ofNat 32 kind.decoded := by
    rw [h.low.rw_eq, kind.rw_and_addrMask h.valid]
  have hiff : BitVec.ofNat 32 kind.decoded ≠ 0#32 ↔ kind.decoded % 2 ^ 32 ≠ 0 := by
    rw [ne_eq, ← BitVec.toNat_inj, BitVec.toNat_ofNat]
    rfl
  rw [slotNext, h.low.isIo_eq h.valid hrom, hmask, h.low.wide_eq h.valid]
  simp only [hiff]

theorem slotNext_narrow (h : Conforms kind c (4 + i)) (hrom : kind.isRom = false)
    (hnarrow : kind.Narrow) : slotNext (c (4 + i)) i = i + kind.slots := by
  rw [h.slotNext_eq hrom]
  cases kind with
  | mem64 pref k =>
    have hlt : 2 ^ k < 2 ^ 32 := hnarrow rfl
    have hpos := Nat.two_pow_pos k
    have hlow : (BarKind.mem64 pref k).decoded % 2 ^ 32 ≠ 0 := by
      rw [BarKind.decoded]
      omega
    exact if_pos ⟨hlow, rfl⟩
  | _ => exact if_neg fun hboth => Bool.false_ne_true hboth.2

theorem slotNext_huge (h : Conforms kind c (4 + i)) (hrom : kind.isRom = false)
    (hhuge : ¬ kind.Narrow) : slotNext (c (4 + i)) i = i + 1 ∧ kind.slots = 2 := by
  rw [h.slotNext_eq hrom]
  cases kind with
  | mem64 pref k =>
    have hk : 32 ≤ k := Nat.not_lt.1 fun hlt => hhuge fun _ => Nat.pow_lt_pow_right (by decide) hlt
    have hpow : 2 ^ k = 2 ^ (k - 32) * 2 ^ 32 := by
      rw [← Nat.pow_add, Nat.sub_add_cancel hk]
    have hlow : (BarKind.mem64 pref k).decoded % 2 ^ 32 = 0 := by
      rw [BarKind.decoded, hpow]
      omega
    exact ⟨if_neg fun hboth => hboth.1 hlow, rfl⟩
  | _ => exact absurd nofun hhuge

end Conforms

namespace BarsAt

theorem le (h : BarsAt c nb i l) : ∀ p ∈ l, i ≤ p.1 := by
  induction h with
  | done hi => exact nofun
  | bar hi hrom hbar hrest ih =>
    rintro p (_ | ⟨_, hp⟩)
    · exact Nat.le_refl _
    · exact (Nat.le_add_right _ _).trans (ih p hp)

theorem conforms (h : BarsAt c nb i l) :
    ∀ p ∈ l, p.1 < nb ∧ p.2.isRom = false ∧ Conforms p.2 c (4 + p.1) := by
  induction h with
  | done hi => exact nofun
  | @bar i kind l hi hrom hbar hrest ih =>
    rintro p (_ | ⟨_, hp⟩)
    · have hpos : 0 < kind.slots := by
        rw [BarKind.slots]
        split <;> decide
      exact ⟨by omega, hrom, hbar⟩
    · exact ih p hp

theorem barReg (h : BarsAt c nb i l) (hij : i ≤ j) (hj : j < nb) :
    BarReg (c (4 + j)) (barAddrMask (isIo (c (4 + j)).val)) := by
  induction h with
  | done hi => omega
  | @bar i kind l hi hrom hbar hrest ih =>
    by_cases hrec : i + kind.slots ≤ j
    · exact ih hrec
    · by_cases hfirst : j = i
      · rw [hfirst, hbar.low.isIo_eq hbar.valid hrom]
        exact hbar.low.barReg kind.fixed_and_addrMask
      · have h64 : kind.is64 = true := by
          by_contra hnarrow
          rw [BarKind.slots, if_neg hnarrow] at hrec
          omega
        have hhigh : 4 + j = 4 + i + 1 := by
          rw [BarKind.slots, if_pos h64] at hrec
          omega
        rw [hhigh]
        exact (hbar.high h64).barReg BitVec.zero_and

theorem slots_iff (h : BarsAt c nb i l) (hn : nb ≤ i + n) :
    slotsFrom c nb n i = l.map Prod.fst ↔ ∀ p ∈ l, p.2.Narrow := by
  induction h generalizing n with
  | done hi =>
    rw [slotsFrom_of_le hi]
    exact ⟨fun _ => nofun, fun _ => rfl⟩
  | @bar i kind l hi hrom hbar hrest ih =>
    have hpos : 0 < kind.slots := by
      rw [BarKind.slots]
      split <;> decide
    obtain ⟨n, rfl⟩ : ∃ n', n = n' + 1 := ⟨n - 1, by omega⟩
    rw [slotsFrom, if_pos (by omega), List.map_cons, List.forall_mem_cons]
    by_cases hnarrow : kind.Narrow
    · rw [hbar.slotNext_narrow hrom hnarrow, List.cons_inj_right, ih (by omega)]
      exact ⟨fun hall => ⟨hnarrow, hall⟩, And.right⟩
    · obtain ⟨hnext, hslots⟩ := hbar.slotNext_huge hrom hnarrow
      refine ⟨fun heq => ?_, fun hall => absurd hall.1 hnarrow⟩
      -- the upper half of this BAR is among the slots of the loop
      obtain ⟨m, rfl⟩ : ∃ m, n = m + 1 := ⟨n - 1, by omega⟩
      rw [List.cons_inj_right, hnext, slotsFrom, if_pos (by omega)] at heq
      obtain ⟨p, hp, hpi⟩ := List.mem_map.1 (heq ▸ List.mem_cons_self : i + 1 ∈ l.map Prod.fst)
      have hle := hrest.le p hp
      omega

end BarsAt

namespace BarFunction

theorem slotRight_iff (f : BarFunction) (hp : p ∈ f.bars) : f.SlotRight p ↔ p.2.Sizable := by
  obtain ⟨hi, hrom, hbar⟩ := f.layout.conforms p hp
  have hfew := numBars_le (headerType f.cfg)
  have hd : dword (0x10 + p.1 * 4) = 4 + p.1 := dword_bar (by omega)
  rw [SlotRight, hbar.low.isIo_eq hbar.valid hrom]
  rw [← hd] at hbar
  exact hbar.right_iff

theorem rom_right (f : BarFunction) :
    ProbesRight f.romKind f.cfg (romOffset (headerType f.cfg)) romMask := by
  have hreg := f.romReg
  cases hkind : f.romKind with
  | rom k =>
    rw [hkind] at hreg
    exact hreg.right_iff.2 trivial
  | unimplemented =>
    rw [hkind] at hreg
    exact hreg.right_unimplemented _
  | _ =>
    obtain hrom | hrom := f.romKind_eq
    · rw [hkind] at hrom
      exact absurd hrom Bool.false_ne_true
    · exact absurd (hkind.symm.trans hrom) nofun

theorem slots_iff (f : BarFunction) (loc : Loc) (b : Bars Config) (hb : b.walk.cfg = f.cfg) :
    barSlots funcAccess loc (numBars (headerType f.cfg)) (numBars (headerType f.cfg)) 0 b =
      f.bars.map Prod.fst ↔ ∀ p ∈ f.bars, p.2.Narrow := by
  rw [barSlots_eq loc (fun j hj => f.layout.barReg (Nat.zero_le j) hj) (numBars_le _) _ _ _
    fun k _ => by rw [hb]]
  exact f.layout.slots_iff (by omega)

theorem right_iff (f : BarFunction) : f.Right ↔ ∀ p ∈ f.bars, p.2.Sizable := by
  refine ⟨fun h p hp => (f.slotRight_iff hp).1 (h.bars p hp), fun h => ⟨?_, f.rom_right, ?_⟩⟩
  · exact fun p hp => (f.slotRight_iff hp).2 (h p hp)
  · exact fun loc b hb => (f.slots_iff loc b hb).2 fun p hp => (h p hp).narrow

end BarFunction

/-- Whether the BARs of a function are sized right depends on each alone: an I/O BAR that decodes
16 bits is not, nor is a 64-bit BAR of 4 GiB or more, and only the latter makes the loop take an
upper half for a BAR. -/
theorem barProbes_right_iff (f : BarFunction) :
    (∀ p ∈ f.bars, f.SlotRight p ↔ p.2.Sizable) ∧
      (∀ loc b, b.walk.cfg = f.cfg →
        (barSlots funcAccess loc (numBars (headerType f.cfg)) (numBars (headerType f.cfg)) 0 b =
          f.bars.map Prod.fst ↔ ∀ p ∈ f.bars, p.2.Narrow)) ∧
      (f.Right ↔ ∀ p ∈ f.bars, p.2.Sizable) :=
  ⟨fun _ hp => f.slotRight_iff hp, f.slots_iff, f.right_iff⟩

/-- The dwords of a function with a prefetchable 64-bit BAR of 4 GiB and an I/O BAR of 32 bytes
that decodes 16 bits. -/
def wideCard : Config
  | 4 => ⟨0xC#32, 0#32, 0#32⟩
  | 5 => ⟨0#32, 0xFFFFFFFF#32, 0#32⟩
  | 6 => ⟨0x1#32, 0xFFE0#32, 0#32⟩
  | _ => ⟨0#32, 0#32, 0#32⟩

theorem wideCard_empty (hk : 6 < k) : Conforms .unimplemented wideCard k := by
  have hreg : wideCard k = ⟨0#32, 0#32, 0#32⟩ := by
    rw [wideCard]
    · omega
    · omega
    · omega
  exact ⟨trivial, hreg ▸ ⟨rfl, rfl, by decide⟩, nofun⟩

theorem wideCard_bars : BarsAt wideCard 6 0
    [(0, .mem64 true 32), (2, .io16 5), (3, .unimplemented), (4, .unimplemented),
      (5, .unimplemented)] := by
  refine .bar (by decide) rfl ⟨⟨by decide, by decide⟩, ?_, fun _ => ?_⟩ ?_
  · exact ⟨rfl, by decide, by decide⟩
  · exact ⟨rfl, by decide, by decide⟩
  refine .bar (by decide) rfl ⟨⟨by decide, by decide⟩, ⟨rfl, by decide, by decide⟩, nofun⟩ ?_
  refine .bar (by decide) rfl (wideCard_empty (by decide)) ?_
  refine .bar (by decide) rfl (wideCard_empty (by decide)) ?_
  refine .bar (by decide) rfl (wideCard_empty (by decide)) ?_
  exact .done (by decide)

def wideFunction : BarFunction where
  cfg := wideCard
  bars := [(0, .mem64 true 32), (2, .io16 5), (3, .unimplemented), (4, .unimplemented),
    (5, .unimplemented)]
  layout := wideCard_bars
  romKind := .unimplemented
  romKind_eq := .inr rfl
  romReg := wideCard_empty (by decide)

/-- The upper half of the 64-bit BAR is taken for a BAR, and the I/O BAR for one of nearly
4 GiB. -/
theorem wideFunction_wrong :
    (pciBarProbe funcAccess wideCard 0x10 0xFFFFFFF0#32).1.is64 = false ∧
      (pciBarProbe funcAccess wideCard 0x18 0xFFFFFFFC#32).1.size = 0xFFFF0020#32 ∧
      ¬ wideFunction.SlotRight (0, .mem64 true 32) ∧ ¬ wideFunction.SlotRight (2, .io16 5) ∧
      ¬ wideFunction.Right := by
  have hfirst : (0, BarKind.mem64 true 32) ∈ wideFunction.bars := List.mem_cons_self
  have hsecond : (2, BarKind.io16 5) ∈ wideFunction.bars :=
    List.mem_cons_of_mem _ List.mem_cons_self
  refine ⟨by decide, by decide, fun h => ?_, fun h => (wideFunction.slotRight_iff hsecond).1 h,
    fun h => ?_⟩
  · exact absurd ((wideFunction.slotRight_iff hfirst).1 h) (by decide : ¬ 32 < 32)
  · exact absurd (wideFunction.right_iff.1 h _ hfirst) (by decide : ¬ 32 < 32)

end Pegasos2.Pci
