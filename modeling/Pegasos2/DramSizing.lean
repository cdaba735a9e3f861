import Pegasos2.Bytes
import Mathlib.Logic.Function.Basic

namespace Pegasos2.Dram
set_option autoImplicit true

abbrev Word := BitVec 32

/-- The words of the DRAM, by their byte addresses. -/
abbrev Mem := Nat → Word

def memPoolBase : Nat := 0x01100000

def mallocPool : Nat := 2 * 1024 * 1024

def dramTop : Nat := 0x30000000

def memReportBase : Nat := 0x00200000

def step : Nat := 0x01000000

/-- The sizing never goes below the malloc pool. -/
def floor : Nat := memPoolBase + mallocPool

def anchor : Nat := 0x00200000

/-- The pattern that is written at a candidate address. -/
def pattern (addr : Nat) : Word := 0xDEAD0000#32 ||| (BitVec.ofNat 32 addr >>> 12)

/-- What accesses at or above the end of the DRAM do: writes are discarded and reads return a
constant, or the address is taken modulo the size. -/
inductive Above where
  | discard (c : Word)
  | wrap
  deriving DecidableEq

/-- The installed DRAM. -/
structure Ram where
  size : Nat
  above : Above
  aligned : step ∣ size
  ge : 0x04000000 ≤ size
  le : size ≤ dramTop
  quiet : ∀ c, above = .discard c → ∀ addr, step ∣ addr → addr < dramTop → c ≠ pattern addr

/-- The word that an address names. -/
def Ram.cell (r : Ram) (addr : Nat) : Option Nat :=
  if addr < r.size then some addr
  else
    match r.above with
    | .discard _ => none
    | .wrap => some (addr % r.size)

/-- What a read returns where there is no word. -/
def Above.constant : Above → Word
  | discard c => c
  | .wrap => 0#32

def Ram.read (r : Ram) (mem : Mem) (addr : Nat) : Word :=
  match r.cell addr with
  | none => r.above.constant
  | some i => mem i

def Ram.write (r : Ram) (mem : Mem) (addr : Nat) (v : Word) : Mem :=
  match r.cell addr with
  | none => mem
  | some i => Function.update mem i v

/-- The loop over the candidate addresses from `addr` on: `addr + STEP` for the first one that is
found to be DRAM. -/
def probe (r : Ram) (addr : Nat) (mem : Mem) : Option Nat × Mem :=
  if _h : floor ≤ addr then
    let save := r.read mem addr
    let mem := r.write mem addr (pattern addr)
    let readback := r.read mem addr
    let mem := r.write mem addr save
    if readback = pattern addr ∧ r.read mem anchor = 0xA5A5A5A5#32 then (some (addr + step), mem)
    else probe r (addr - step) mem
  else (none, mem)
termination_by addr
decreasing_by
  rw [floor, memPoolBase, mallocPool] at _h
  rw [step]
  omega

/-- The sizing of the DRAM: `dram_top`, and the memory afterwards. -/
def sizeDram (r : Ram) (mem : Mem) : Nat × Mem :=
  let anchorSave := r.read mem anchor
  let mem := r.write mem anchor 0xA5A5A5A5#32
  let (found, mem) := probe r (dramTop - step) mem
  (found.getD 0x04000000, r.write mem anchor anchorSave)

/-- Four bytes of `FREE_GUARD`. -/
def freeGuard : Word := 0x69696969#32

/-- `memset` over `n` words. -/
def memset (r : Ram) (memory : Nat) (v : Word) : Nat → Mem → Mem
  | 0, mem => mem
  | n + 1, mem => r.write (memset r memory v n mem) (memory + 4 * n) v

/-- The pool is filled with the guard of `DEBUG_MALLOC`, and its first block has the whole length
and no next one. -/
def initMalloc (r : Ram) (memory max : Nat) (mem : Mem) : Mem :=
  let mem := memset r memory freeGuard (max / 4) mem
  r.write (r.write mem memory (BitVec.ofNat 32 (max - max % 8))) (memory + 4) 0#32

/-- The variables that `machine_initialize` sets, and the memory. -/
structure Machine where
  memory : Nat
  memorySize : Nat
  memoryUsed : Nat
  memoryOffset : Nat
  mem : Mem

def machineInitialize (r : Ram) (mem : Mem) : Machine where
  memory := memReportBase
  memorySize := (sizeDram r mem).1 - memReportBase
  memoryUsed := mallocPool
  memoryOffset := memPoolBase - memReportBase
  mem := initMalloc r memPoolBase mallocPool (sizeDram r mem).2

/-- The memory top that is reported. -/
def Machine.top (m : Machine) : Nat := m.memory + m.memorySize

variable {r : Ram} {mem : Mem}

theorem Ram.read_some (h : r.cell addr = some i) : r.read mem addr = mem i := by
  rw [read, h]

theorem Ram.read_none (h : r.cell addr = none) : r.read mem addr = r.above.constant := by
  rw [read, h]

theorem Ram.write_some (h : r.cell addr = some i) (v : Word) :
    r.write mem addr v = Function.update mem i v := by
  rw [write, h]

theorem Ram.write_none (h : r.cell addr = none) (v : Word) : r.write mem addr v = mem := by
  rw [write, h]

theorem Ram.cell_lt (r : Ram) (h : addr < r.size) : r.cell addr = some addr := if_pos h

theorem Ram.cell_anchor (r : Ram) : r.cell anchor = some anchor :=
  r.cell_lt (Nat.lt_of_lt_of_le (by decide) r.ge)

/-- An address that names a word passes, whichever word it is: even the anchor would be restored
before it is looked at. -/
theorem probe_found (hcell : r.cell addr = some i) (hfloor : floor ≤ addr)
    (hanchor : mem anchor = 0xA5A5A5A5#32) : probe r addr mem = (some (addr + step), mem) := by
  have hback : Function.update (Function.update mem i (pattern addr)) i (mem i) = mem := by
    rw [Function.update_idem, Function.update_eq_self]
  rw [probe, dif_pos hfloor]
  simp only [Ram.read_some hcell, Ram.write_some hcell, Ram.read_some r.cell_anchor,
    Function.update_self, hback]
  exact if_pos ⟨trivial, hanchor⟩

theorem probe_discarded (hcell : r.cell addr = none) (hne : r.above.constant ≠ pattern addr)
    (hfloor : floor ≤ addr) : probe r addr mem = probe r (addr - step) mem := by
  rw [probe, dif_pos hfloor]
  simp only [Ram.read_none hcell, Ram.write_none hcell]
  exact if_neg fun h => hne h.1

theorem probe_last (r : Ram) (hanchor : mem anchor = 0xA5A5A5A5#32) :
    probe r (r.size - step) mem = (some r.size, mem) := by
  have hge : step ≤ r.size := Nat.le_trans (by decide) r.ge
  have hlt : r.size - step < r.size := Nat.sub_lt (Nat.lt_of_lt_of_le (by decide) hge) (by decide)
  have hfloor : floor ≤ r.size - step := Nat.le_trans (by decide) (Nat.sub_le_sub_right r.ge step)
  have hfound := probe_found (r.cell_lt hlt) hfloor hanchor
  rwa [Nat.sub_add_cancel hge] at hfound

/-- Where accesses above the DRAM are discarded, the loop goes down to its end. -/
theorem probe_above (r : Ram) (habove : r.above = .discard c) (hanchor : mem anchor = 0xA5A5A5A5#32)
    (k : Nat) (hk : r.size + k * step ≤ dramTop) :
    probe r (r.size + k * step - step) mem = (some r.size, mem) := by
  induction k with
  | zero =>
    rw [Nat.zero_mul, Nat.add_zero]
    exact probe_last r hanchor
  | succ k ih =>
    have hsucc : r.size + (k + 1) * step - step = r.size + k * step := by
      rw [Nat.succ_mul, ← Nat.add_assoc, Nat.add_sub_cancel]
    have hlt : r.size + k * step < dramTop := by
      rw [Nat.succ_mul, ← Nat.add_assoc] at hk
      exact Nat.lt_of_lt_of_le (Nat.lt_add_of_pos_right (by decide)) hk
    have hcell : r.cell (r.size + k * step) = none := by
      rw [Ram.cell, if_neg (Nat.not_lt.2 (Nat.le_add_right _ _)), habove]
    have hdvd : step ∣ r.size + k * step := Nat.dvd_add r.aligned (Nat.dvd_mul_left step k)
    have hquiet : r.above.constant ≠ pattern (r.size + k * step) := by
      have hconst : r.above.constant = c := by rw [habove]; rfl
      rw [hconst]
      exact r.quiet c habove _ hdvd hlt
    have hfloor : floor ≤ r.size + k * step :=
      Nat.le_trans (Nat.le_trans (by decide) r.ge) (Nat.le_add_right _ _)
    rw [hsucc, probe_discarded hcell hquiet hfloor]
    exact ih (Nat.le_of_lt hlt)

theorem probe_discard (r : Ram) (habove : r.above = .discard c)
    (hanchor : mem anchor = 0xA5A5A5A5#32) :
    probe r (dramTop - step) mem = (some r.size, mem) := by
  obtain ⟨k, hk⟩ := Nat.dvd_sub (show step ∣ dramTop by decide) r.aligned
  have htop : r.size + k * step = dramTop := by
    rw [Nat.mul_comm, ← hk]
    exact Nat.add_sub_cancel' r.le
  have habove' := probe_above r habove hanchor k (Nat.le_of_eq htop)
  rwa [htop] at habove'

theorem probe_wrap (r : Ram) (habove : r.above = .wrap) (hanchor : mem anchor = 0xA5A5A5A5#32) :
    probe r (dramTop - step) mem = (some dramTop, mem) := by
  by_cases hlt : dramTop - step < r.size
  · exact probe_found (r.cell_lt hlt) (by decide) hanchor
  · have hcell : r.cell (dramTop - step) = some ((dramTop - step) % r.size) := by
      rw [Ram.cell, if_neg hlt, habove]
    exact probe_found hcell (by decide) hanchor

theorem sizeDram_eq (r : Ram) (mem : Mem) :
    sizeDram r mem = (if r.above = .wrap then dramTop else r.size, mem) := by
  have hanchor : Function.update mem anchor 0xA5A5A5A5#32 anchor = 0xA5A5A5A5#32 :=
    Function.update_self _ _ _
  have hprobe : probe r (dramTop - step) (Function.update mem anchor 0xA5A5A5A5#32) =
      (some (if r.above = .wrap then dramTop else r.size),
        Function.update mem anchor 0xA5A5A5A5#32) := by
    cases habove : r.above with
    | discard c =>
      rw [if_neg nofun]
      exact probe_discard r habove hanchor
    | wrap =>
      rw [if_pos rfl]
      exact probe_wrap r habove hanchor
  rw [sizeDram]
  simp only [Ram.read_some r.cell_anchor, Ram.write_some r.cell_anchor, hprobe, Option.getD_some,
    Function.update_idem, Function.update_eq_self]

theorem memset_apply (r : Ram) (hin : memory + 4 * n ≤ r.size) (v : Word) (mem : Mem) (addr : Nat) :
    memset r memory v n mem addr =
      if ∃ i < n, addr = memory + 4 * i then v else mem addr := by
  induction n with
  | zero => exact (if_neg fun ⟨i, hi, _⟩ => Nat.not_lt_zero i hi).symm
  | succ n ih =>
    rw [memset, Ram.write_some (r.cell_lt (by omega))]
    by_cases haddr : addr = memory + 4 * n
    · rw [haddr, Function.update_self, if_pos ⟨n, Nat.lt_succ_self n, rfl⟩]
    · rw [Function.update_of_ne haddr, ih (by omega)]
      refine if_congr ⟨fun ⟨i, hi, h⟩ => ⟨i, Nat.lt_succ_of_lt hi, h⟩, ?_⟩ rfl rfl
      rintro ⟨i, hi, h⟩
      refine ⟨i, Nat.lt_of_le_of_ne (Nat.le_of_lt_succ hi) ?_, h⟩
      rintro rfl
      exact haddr h

/-- The address is that of a word of the malloc pool. -/
def InPool (addr : Nat) : Prop := ∃ i < mallocPool / 4, addr = memPoolBase + 4 * i

/-- The word that `init_malloc` leaves in the pool. -/
def poolWord (addr : Nat) : Word :=
  if addr = memPoolBase then BitVec.ofNat 32 mallocPool
  else if addr = memPoolBase + 4 then 0#32
  else freeGuard

theorem initMalloc_pool (r : Ram) (mem : Mem) (h : InPool addr) :
    initMalloc r memPoolBase mallocPool mem addr = poolWord addr := by
  have hsize : memPoolBase + mallocPool ≤ r.size := Nat.le_trans (by decide) r.ge
  have hfirst : memPoolBase + 4 < r.size := Nat.lt_of_lt_of_le (by decide) hsize
  have hfill : memset r memPoolBase freeGuard (mallocPool / 4) mem addr = freeGuard :=
    (memset_apply r hsize _ _ _).trans (if_pos h)
  rw [initMalloc, Ram.write_some (r.cell_lt hfirst),
    Ram.write_some (r.cell_lt (Nat.lt_of_le_of_lt (Nat.le_add_right _ 4) hfirst)), poolWord]
  by_cases hbase : addr = memPoolBase
  · subst hbase
    rw [Function.update_of_ne (by decide), Function.update_self, if_pos rfl]
    rfl
  · rw [if_neg hbase]
    by_cases hnext : addr = memPoolBase + 4
    · rw [hnext, Function.update_self, if_pos rfl]
    · rw [Function.update_of_ne hnext, Function.update_of_ne hbase, if_neg hnext, hfill]

theorem initMalloc_outside (r : Ram) (mem : Mem) (h : ¬ InPool addr) :
    initMalloc r memPoolBase mallocPool mem addr = mem addr := by
  have hsize : memPoolBase + mallocPool ≤ r.size := Nat.le_trans (by decide) r.ge
  have hfirst : memPoolBase + 4 < r.size := Nat.lt_of_lt_of_le (by decide) hsize
  have hbase : addr ≠ memPoolBase := by
    rintro rfl
    exact h ⟨0, by decide, rfl⟩
  have hnext : addr ≠ memPoolBase + 4 := by
    rintro rfl
    exact h ⟨1, by decide, rfl⟩
  rw [initMalloc, Ram.write_some (r.cell_lt hfirst),
    Ram.write_some (r.cell_lt (Nat.lt_of_le_of_lt (Nat.le_add_right _ 4) hfirst)),
    Function.update_of_ne hnext, Function.update_of_ne hbase, memset_apply r hsize]
  exact if_neg h

/-- The size is found and every word has its old value just if the addresses above the DRAM are not
aliased and the pool already holds what `init_malloc` writes to it. The words outside the pool have
their old value in any case. -/
theorem machineInitialize_sized_iff (r : Ram) (mem : Mem) :
    (((machineInitialize r mem).top = r.size ∧
        ∀ addr < r.size, (machineInitialize r mem).mem addr = mem addr) ↔
      (r.above ≠ .wrap ∨ r.size = dramTop) ∧ ∀ addr, InPool addr → mem addr = poolWord addr) ∧
      ∀ addr, ¬ InPool addr → (machineInitialize r mem).mem addr = mem addr := by
  have hge : memReportBase ≤ r.size := Nat.le_trans (by decide) r.ge
  have hmem : (machineInitialize r mem).mem = initMalloc r memPoolBase mallocPool mem := by
    rw [machineInitialize, sizeDram_eq]
  have htop : (machineInitialize r mem).top = r.size ↔ r.above ≠ .wrap ∨ r.size = dramTop := by
    rw [Machine.top, machineInitialize, sizeDram_eq]
    dsimp only
    by_cases habove : r.above = .wrap
    · rw [if_pos habove]
      constructor
      · intro htop
        exact .inr htop.symm
      · rintro (hne | hsize)
        · exact absurd habove hne
        · exact hsize.symm
    · rw [if_neg habove]
      exact iff_of_true (Nat.add_sub_cancel' hge) (.inl habove)
  have hkept : (∀ addr < r.size, (machineInitialize r mem).mem addr = mem addr) ↔
      ∀ addr, InPool addr → mem addr = poolWord addr := by
    rw [hmem]
    constructor
    · intro h addr hpool
      obtain ⟨i, hi, haddr⟩ := hpool
      have hlt : addr < r.size := by
        have hsize : memPoolBase + mallocPool ≤ r.size := Nat.le_trans (by decide) r.ge
        omega
      rw [← h addr hlt, initMalloc_pool r mem ⟨i, hi, haddr⟩]
    · intro h addr _
      by_cases hpool : InPool addr
      · rw [initMalloc_pool r mem hpool, h addr hpool]
      · exact initMalloc_outside r mem hpool
  exact ⟨and_congr htop hkept, fun addr h => hmem ▸ initMalloc_outside r mem h⟩

/-- 256 MiB, at which the addresses wrap around. -/
def wrapping : Ram where
  size := 0x10000000
  above := .wrap
  aligned := by decide
  ge := by decide
  le := by decide
  quiet := nofun

/-- 768 MiB are reported for them. -/
theorem wrapping_overReported : (machineInitialize wrapping fun _ => 0#32).top = 0x30000000 ∧
    ¬ (machineInitialize wrapping fun _ => 0#32).top = wrapping.size := by
  have htop : (machineInitialize wrapping fun _ => 0#32).top = 0x30000000 := by
    rw [Machine.top, machineInitialize, sizeDram_eq]
    rfl
  rw [htop]
  exact ⟨rfl, by decide⟩

end Pegasos2.Dram
