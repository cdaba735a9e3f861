import Pegasos2.Bytes
import Pegasos2.Program

namespace Pegasos2.Ide
open Program
set_option autoImplicit true

/-- Memory by CPU-physical address. -/
abbrev Mem := BitVec 32 → UInt8

/-- The drive's part of `PSelf`: an ATA disk with logical block addresses and 512-byte sectors. -/
structure Drive where
  id : Nat
  /-- `bmi_base`, 0 where the bus master has not been found. -/
  bmi : Nat

def blocksize : Nat := 512

/-- The registers of the taskfile when a command is written. -/
structure Taskfile where
  sdh : Nat
  seccnt : Nat
  sector : Nat
  cylLo : Nat
  cylHi : Nat
  deriving DecidableEq, Repr

/-- The logical block address in the taskfile, and the number of sectors. -/
def Taskfile.lba (t : Taskfile) : Nat :=
  t.sector + t.cylLo * 2 ^ 8 + t.cylHi * 2 ^ 16 + t.sdh % 16 * 2 ^ 24

def Taskfile.count (t : Taskfile) : Nat := if t.seccnt = 0 then 256 else t.seccnt

def bswap16 (v : Nat) : Nat := v / 2 ^ 8 % 2 ^ 8 + v % 2 ^ 8 * 2 ^ 8

def bswap32 (v : Nat) : Nat :=
  v / 2 ^ 24 % 2 ^ 8 + v / 2 ^ 16 % 2 ^ 8 * 2 ^ 8 + v / 2 ^ 8 % 2 ^ 8 * 2 ^ 16 +
    v % 2 ^ 8 * 2 ^ 24

/-- `struct prd_entry`, as the CPU stores it. -/
structure PrdEntry where
  addr : Nat
  count : Nat
  flags : Nat
  deriving DecidableEq, Repr

/-- The bus master reads the entry with the other byte order, and a count of 0 as 64 KiB. -/
def PrdEntry.busAddr (p : PrdEntry) : BitVec 32 := .ofNat 32 (bswap32 p.addr)

def PrdEntry.busCount (p : PrdEntry) : Nat :=
  if bswap16 p.count = 0 then 2 ^ 16 else bswap16 p.count

/-- The commands the drive has been given. -/
inductive Command where
  | read (t : Taskfile)
  | readDma (p : PrdEntry) (t : Taskfile)
  deriving DecidableEq, Repr

/-- What the drive and its controller do: the contents of the sectors, the value of each read of a
status register, whether each `wait_ready` succeeds, and what a failed transfer leaves in the
memory it was for. -/
structure Hardware where
  sector : Nat → Nat → UInt8
  status : Nat → UInt8
  ready : Nat → Bool
  left : Nat → Mem

structure Mach where
  mem : Mem
  polls : Nat
  waits : Nat
  commands : List Command

abbrev Op := Prog Mach

def Mach.setMem (s : Mach) (m : Mem) : Mach := { s with mem := m }

@[simp] theorem Mach.setMem_mem (s : Mach) (m : Mem) : (s.setMem m).mem = m := rfl

@[simp] theorem Mach.setMem_commands (s : Mach) (m : Mem) :
    (s.setMem m).commands = s.commands := rfl

/-- A sector is stored at `a`. -/
def putSector (a : BitVec 32) (data : Nat → UInt8) (m : Mem) : Mem := fun x =>
  if (x - a).toNat < 512 then data (x - a).toNat else m x

/-- `n` sectors from `lba` on are stored at `a`. The address counter of the drive has 28 bits. -/
def storeSectors (sector : Nat → Nat → UInt8) (a : BitVec 32) (lba : Nat) : Nat → Mem → Mem
  | 0, m => m
  | n + 1, m =>
    putSector (a + .ofNat 32 (512 * n)) (sector ((lba + n) % 2 ^ 28))
      (storeSectors sector a lba n m)

section

variable (o : Hardware) (pself : Drive)

def readStatus (s : Mach) : UInt8 × Mach := (o.status s.polls, { s with polls := s.polls + 1 })

/-- The registers that `f_ata_disk_read_blocks` writes for a block. -/
def pioTaskfile (blkno : Nat) : Taskfile where
  sdh := (0xA0 ||| pself.id <<< 4 ||| (blkno / 2 ^ 24 % 16 ||| 0x40)) % 256
  seccnt := 1
  sector := blkno % 256
  cylLo := blkno / 2 ^ 8 % 2 ^ 16 % 256
  cylHi := blkno / 2 ^ 8 % 2 ^ 16 / 256

/-- `wait_ready`. -/
def waitReady : Op Bool := .access fun s => (o.ready s.waits, { s with waits := s.waits + 1 })

def writeCommand (c : Command) : Op Unit :=
  .access fun s => ((), { s with commands := s.commands ++ [c] })

/-- The loop that reads `i` words from the data register; the drive hands out the sector that the
taskfile names. -/
def readWords (data : Nat → UInt8) (a : BitVec 32) : Nat → Mem → Mem
  | 0, m => m
  | i + 1, m =>
    -- Each word has the byte that comes first in its low half.
    let word := (data (2 * i)).toNat + (data (2 * i + 1)).toNat * 256
    Function.update (Function.update (readWords data a i m) (a + .ofNat 32 (2 * i))
      (.ofNat (word % 256))) (a + .ofNat 32 (2 * i + 1)) (.ofNat (word / 256))

/-- The words of a sector. -/
def readSector (a : BitVec 32) (t : Taskfile) : Op Unit :=
  .access fun s => ((), { s with mem := readWords (o.sector t.lba) a 256 s.mem })

/-- `while (read1(s, STATUS) & S_DREADY)`. -/
def skipEcc : Op Unit :=
  .loop (fun _ => .access fun s =>
    (if (readStatus o s).1 &&& 0x08 = 0 then .inr () else .inl (), (readStatus o s).2)) ()

/-- One sector. -/
def pioReadOne (a : BitVec 32) (blkno : Nat) : Op Bool := do
  let ready ← waitReady o
  if ready then do
    writeCommand (.read (pioTaskfile pself blkno))
    let ready ← waitReady o
    if ready then do
      readSector o a (pioTaskfile pself blkno)
      skipEcc o
      pure true
    else pure false
  else pure false

/-- The loop of `f_ata_disk_read_blocks` from sector `b` on, `n` sectors being left. -/
def pioFrom (addr : BitVec 32) (block : Nat) : (n b : Nat) → Op Bool
  | 0, _ => pure true
  | n + 1, b => do
    let ok ← pioReadOne o pself (addr + .ofNat 32 (blocksize * b)) ((block + b) % 2 ^ 32)
    if ok then pioFrom addr block n (b + 1) else pure false

/-- `f_ata_disk_read_blocks`: the number of sectors that is pushed, or the error. -/
def ataDiskReadBlocks (addr : BitVec 32) (block count : Nat) : Op (Except Retcode Nat) := do
  let ok ← pioFrom o pself addr block count 0
  pure (if ok then .ok count else .error .eAbort)

/-- `wait_status`, with `n` reads left. -/
def waitStatus (want wantClear : UInt8) : Nat → Mach → Bool × Mach
  | 0, s => (false, s)
  | n + 1, s =>
    let (st, s) := readStatus o s
    if st &&& 0x80 = 0 ∧ st &&& want = want ∧ st &&& wantClear = 0 then (true, s)
    else if st &&& 0x01 ≠ 0 then (false, s)
    else waitStatus want wantClear n s

/-- The poll of `BMI_STS`, with `n` reads left. -/
def pollBmi : Nat → Mach → Bool × Mach
  | 0, s => (false, s)
  | n + 1, s =>
    let (st, s) := readStatus o s
    if st &&& 0x02 ≠ 0 then (false, s)
    else if st &&& 0x04 ≠ 0 then (true, s)
    else pollBmi n s

def prdEntry (buf : BitVec 32) (bytes : Nat) : PrdEntry :=
  ⟨bswap32 buf.toNat, bswap16 (bytes % 2 ^ 16), bswap16 0x8000⟩

/-- The registers that `dma_read_one` writes. -/
def dmaTaskfile (block count : Nat) : Taskfile where
  sdh := 0xA0 ||| (pself.id <<< 4) % 256 ||| 0xE0 ||| block / 2 ^ 24 % 16
  seccnt := count % 256
  sector := block % 256
  cylLo := block / 2 ^ 8 % 256
  cylHi := block / 2 ^ 16 % 256

/-- The transfer has ended: with the sectors that the taskfile names at the address of the PRD, or
with anything in the memory of the PRD. -/
def transferred (p : PrdEntry) (t : Taskfile) (ok : Bool) (s : Mach) : Mach :=
  s.setMem (if ok then storeSectors o.sector p.busAddr t.lba t.count s.mem
    else fun x => if (x - p.busAddr).toNat < p.busCount then o.left s.polls x else s.mem x)

/-- `dma_read_one` behind the poll. -/
def afterPoll (p : PrdEntry) (t : Taskfile) : Bool × Mach → Bool × Mach
  | (ok, s) =>
    let (_, s) := readStatus o s
    if ok then
      let (st, s) := readStatus o s
      (decide (st &&& 0x81 = 0), transferred o p t (decide (st &&& 0x81 = 0)) s)
    else (false, transferred o p t false s)

/-- `dma_read_one` once the drive is ready. -/
def issueDma (p : PrdEntry) (t : Taskfile) (s : Mach) : Bool × Mach :=
  afterPoll o p t (pollBmi o 50000000 { s with commands := s.commands ++ [.readDma p t] })

/-- What follows a `wait_status`. -/
def ifReady (f : Mach → Bool × Mach) : Bool × Mach → Bool × Mach
  | (true, s) => f s
  | (false, s) => (false, s)

def dmaReadOne (buf : BitVec 32) (block count : Nat) (s : Mach) : Bool × Mach :=
  -- The drive is waited for before and after it is selected.
  ifReady (fun s => ifReady (issueDma o (prdEntry buf (blocksize * count % 2 ^ 32))
      (dmaTaskfile pself block count)) (waitStatus o 0x40 0 5000000 s))
    (waitStatus o 0x40 0 5000000 s)

def maxPerDma : Nat := 0x10000 / blocksize

/-- The loop of `f_dma_read_blocks` ends with the number of sectors that have been transferred. -/
def dmaLoop (addr : BitVec 32) (block count : Nat) : Nat → Op Nat :=
  .loop fun done => .access fun s =>
    if done < count then
      let thisChunk := min (count - done) maxPerDma
      let (ok, s) := dmaReadOne o pself (addr + .ofNat 32 (done * blocksize))
        ((block + done) % 2 ^ 32) thisChunk s
      (if ok then .inl (done + thisChunk) else .inr done, s)
    else (.inr done, s)

/-- `f_dma_read_blocks` behind the loop: the rest is read by PIO. -/
def fallback (addr : BitVec 32) (block count done : Nat) : Op (Except Retcode Nat) :=
  if done < count then do
    let r ← ataDiskReadBlocks o pself (addr + .ofNat 32 (done * blocksize))
      ((block + done) % 2 ^ 32) (count - done)
    pure (r.map (done + ·))
  else pure (.ok done)

def dmaReadBlocks (addr : BitVec 32) (block count : Nat) : Op (Except Retcode Nat) :=
  if pself.bmi = 0 then ataDiskReadBlocks o pself addr block count
  else if count = 0 then pure (.ok 0)
  else do
    let done ← dmaLoop o pself addr block count 0
    fallback o pself addr block count done

end

theorem sub_add_ofNat (x a : BitVec 32) (h : k ≤ (x - a).toNat) :
    (x - (a + .ofNat 32 k)).toNat = (x - a).toNat - k := by
  bv_omega

theorem eq_add_ofNat (x a : BitVec 32) (h : k < 2 ^ 32) :
    x = a + .ofNat 32 k ↔ (x - a).toNat = k := by
  constructor
  · intro h
    bv_omega
  · intro h
    bv_omega

theorem add_ofNat_add (a : BitVec 32) (m n : Nat) :
    a + .ofNat 32 m + .ofNat 32 n = a + .ofNat 32 (m + n) := by
  bv_omega

theorem word_halves (lo hi : UInt8) :
    UInt8.ofNat ((lo.toNat + hi.toNat * 256) % 256) = lo ∧
      UInt8.ofNat ((lo.toNat + hi.toNat * 256) / 256) = hi := by
  have hlo := lo.toNat_lt
  have hhi := hi.toNat_lt
  rw [show (lo.toNat + hi.toNat * 256) % 256 = lo.toNat by omega,
    show (lo.toNat + hi.toNat * 256) / 256 = hi.toNat by omega]
  exact ⟨UInt8.ofNat_toNat, UInt8.ofNat_toNat⟩

theorem readWords_apply (data : Nat → UInt8) (a : BitVec 32) (m : Mem) (x : BitVec 32)
    (hi : i ≤ 256) :
    readWords data a i m x = if (x - a).toNat < 2 * i then data (x - a).toNat else m x := by
  induction i with
  | zero => rw [readWords, if_neg (by omega)]
  | succ i ih =>
    obtain ⟨hlo, hhi⟩ := word_halves (data (2 * i)) (data (2 * i + 1))
    have hfirst := eq_add_ofNat (k := 2 * i) x a (by omega)
    have hsecond := eq_add_ofNat (k := 2 * i + 1) x a (by omega)
    rw [readWords]
    simp only [hlo, hhi]
    by_cases h1 : (x - a).toNat = 2 * i + 1
    · rw [← hsecond.2 h1, Function.update_self, if_pos (by omega), h1]
    · rw [Function.update_of_ne (fun h => h1 (hsecond.1 h))]
      by_cases h0 : (x - a).toNat = 2 * i
      · rw [← hfirst.2 h0, Function.update_self, if_pos (by omega), h0]
      · rw [Function.update_of_ne (fun h => h0 (hfirst.1 h)), ih (by omega)]
        by_cases hlt : (x - a).toNat < 2 * i
        · rw [if_pos hlt, if_pos (by omega)]
        · rw [if_neg hlt, if_neg (by omega)]

theorem readWords_eq (data : Nat → UInt8) (a : BitVec 32) (m : Mem) :
    readWords data a 256 m = putSector a data m := by
  funext x
  rw [readWords_apply data a m x (Nat.le_refl 256), putSector]

theorem storeSectors_add (sector : Nat → Nat → UInt8) (a : BitVec 32) (lba m n : Nat) (mem : Mem) :
    storeSectors sector a lba (m + n) mem =
      storeSectors sector (a + .ofNat 32 (512 * m)) (lba + m) n
        (storeSectors sector a lba m mem) := by
  induction n with
  | zero => rfl
  | succ n ih =>
    rw [← Nat.add_assoc, storeSectors, storeSectors, ih, add_ofNat_add, ← Nat.mul_add,
      Nat.add_assoc lba]

/-- A store of sectors reads only the memory that it does not overwrite. -/
theorem storeSectors_congr (sector : Nat → Nat → UInt8) (a : BitVec 32) (lba n : Nat)
    (x : BitVec 32) (h : (x - a).toNat < 512 * n ∨ m x = m' x) :
    storeSectors sector a lba n m x = storeSectors sector a lba n m' x := by
  induction n with
  | zero => exact h.resolve_left (by omega)
  | succ n ih =>
    rw [storeSectors, storeSectors, putSector, putSector]
    by_cases hin : (x - (a + .ofNat 32 (512 * n))).toNat < 512
    · rw [if_pos hin, if_pos hin]
    · rw [if_neg hin, if_neg hin]
      refine ih (h.imp_left fun hlt => ?_)
      by_contra hge
      rw [sub_add_ofNat x a (Nat.not_lt.1 hge)] at hin
      omega

theorem storeSectors_mod (sector : Nat → Nat → UInt8) (a : BitVec 32) (lba n : Nat) (m : Mem) :
    storeSectors sector a (lba % 2 ^ 28) n m = storeSectors sector a lba n m := by
  induction n with
  | zero => rfl
  | succ n ih => rw [storeSectors, storeSectors, ih, Nat.mod_add_mod]

theorem bswap16_bytes (h0 : b0 < 256) (h1 : b1 < 256) :
    bswap16 (b0 + b1 * 256) = b1 + b0 * 256 := by
  rw [bswap16]
  omega

theorem bswap16_bswap16 (h : v < 2 ^ 16) : bswap16 (bswap16 v) = v := by
  have hv : v = v % 256 + v / 256 * 256 := by omega
  have h0 : v % 256 < 256 := Nat.mod_lt v (by decide)
  have h1 : v / 256 < 256 := by omega
  rw [hv, bswap16_bytes h0 h1, bswap16_bytes h1 h0]

theorem bswap32_bytes (h0 : b0 < 256) (h1 : b1 < 256) (h2 : b2 < 256) (h3 : b3 < 256) :
    bswap32 (b0 + b1 * 2 ^ 8 + b2 * 2 ^ 16 + b3 * 2 ^ 24) =
      b3 + b2 * 2 ^ 8 + b1 * 2 ^ 16 + b0 * 2 ^ 24 := by
  rw [bswap32]
  omega

theorem bswap32_bswap32 (h : v < 2 ^ 32) : bswap32 (bswap32 v) = v := by
  have hv : v = v % 256 + v / 2 ^ 8 % 256 * 2 ^ 8 + v / 2 ^ 16 % 256 * 2 ^ 16 +
      v / 2 ^ 24 * 2 ^ 24 := by omega
  have h0 : v % 256 < 256 := Nat.mod_lt _ (by decide)
  have h1 : v / 2 ^ 8 % 256 < 256 := Nat.mod_lt _ (by decide)
  have h2 : v / 2 ^ 16 % 256 < 256 := Nat.mod_lt _ (by decide)
  have h3 : v / 2 ^ 24 < 256 := by omega
  rw [hv, bswap32_bytes h0 h1 h2 h3, bswap32_bytes h3 h2 h1 h0]

theorem prdEntry_busAddr (buf : BitVec 32) (bytes : Nat) : (prdEntry buf bytes).busAddr = buf := by
  rw [PrdEntry.busAddr, prdEntry, bswap32_bswap32 buf.isLt, BitVec.ofNat_toNat, BitVec.setWidth_eq]

/-- The count of the PRD stands for the bytes of a chunk, of 64 KiB at most. -/
theorem prdEntry_busCount (buf : BitVec 32) (hpos : 0 < bytes) (hle : bytes ≤ 2 ^ 16) :
    (prdEntry buf bytes).busCount = bytes := by
  rw [PrdEntry.busCount, prdEntry, bswap16_bswap16 (Nat.mod_lt _ (Nat.two_pow_pos 16))]
  by_cases heq : bytes = 2 ^ 16
  · rw [heq, Nat.mod_self, if_pos rfl]
  · rw [Nat.mod_eq_of_lt (by omega), if_neg (by omega)]

section

variable (pself : Drive)

theorem pioTaskfile_lba (blkno : Nat) : (pioTaskfile pself blkno).lba = blkno % 2 ^ 28 := by
  have hsdh : (pioTaskfile pself blkno).sdh % 16 = blkno / 2 ^ 24 % 16 := by
    have hid : pself.id <<< 4 % 2 ^ 4 = 0 := by
      rw [Nat.shiftLeft_eq]
      exact Nat.mul_mod_left _ _
    have hmod (v : Nat) : v % 256 % 16 = v % 2 ^ 4 := by omega
    rw [pioTaskfile]
    simp only [hmod, Nat.or_mod_two_pow, hid]
    simp
  rw [Taskfile.lba, hsdh, pioTaskfile]
  simp only [Nat.reducePow]
  omega

theorem dmaTaskfile_eq (block count : Nat) :
    dmaTaskfile pself block count = { pioTaskfile pself block with seccnt := count % 256 } := by
  have hsdh : 0xA0 ||| (pself.id <<< 4) % 256 ||| 0xE0 ||| block / 2 ^ 24 % 16 =
      (0xA0 ||| pself.id <<< 4 ||| (block / 2 ^ 24 % 16 ||| 0x40)) % 2 ^ 8 := by
    have hnibble : block / 2 ^ 24 % 16 % 2 ^ 8 = block / 2 ^ 24 % 16 := by omega
    have hlba : (0xE0 : Nat) = 0x40 ||| 0xA0 := rfl
    simp only [Nat.or_mod_two_pow, hnibble]
    rw [hlba]
    simp only [Nat.reducePow, Nat.reduceMod]
    grind
  rw [dmaTaskfile, pioTaskfile, hsdh]
  simp only [Nat.reducePow, Taskfile.mk.injEq, true_and]
  omega

variable (o : Hardware)

/-- What an access to the drive leaves of the memory, and the PIO commands it adds. -/
structure Reads (f : Mem → Mem) (s s' : Mach) : Prop where
  mem : s'.mem = f s.mem
  commands : ∃ l, s'.commands = s.commands ++ l ∧ ∀ c ∈ l, ∃ t, c = .read t

theorem Reads.refl (s : Mach) : Reads id s s :=
  ⟨rfl, [], (List.append_nil _).symm, fun _ hc => absurd hc List.not_mem_nil⟩

theorem Reads.trans (h : Reads f s s₁) (h' : Reads g s₁ s₂) : Reads (g ∘ f) s s₂ := by
  obtain ⟨l, hl, hread⟩ := h.commands
  obtain ⟨l', hl', hread'⟩ := h'.commands
  refine ⟨by rw [h'.mem, h.mem]; rfl, l ++ l', by rw [hl', hl, List.append_assoc], fun c hc => ?_⟩
  obtain hc | hc := List.mem_append.1 hc
  · exact hread c hc
  · exact hread' c hc

theorem skipEcc_reads (h : Prog.Halts (skipEcc o) s x s') : Reads id s s' := by
  have hstep (s : Mach) : Reads id s (readStatus o s).2 :=
    ⟨rfl, [], (List.append_nil _).symm, fun _ hc => absurd hc List.not_mem_nil⟩
  refine Prog.Halts.loop_invariant (fun _ s' => Reads id s s') (Q := fun _ s' => Reads id s s')
    (fun _ s₁ _ s₂ hI hrun => ?_) (fun _ s₁ _ s₂ hI hrun => ?_) (.refl s) h
  · obtain ⟨-, rfl⟩ := hrun.of_access
    exact hI.trans (hstep s₁)
  · obtain ⟨-, rfl⟩ := hrun.of_access
    exact hI.trans (hstep s₁)

theorem waitReady_reads (h : Prog.Halts (waitReady o) s x s') : Reads id s s' := by
  obtain ⟨-, rfl⟩ := h.of_access
  exact ⟨rfl, [], (List.append_nil _).symm, fun _ hc => absurd hc List.not_mem_nil⟩

/-- A sector that is read is stored; one that is not may still have been asked for. -/
theorem pioReadOne_reads (a : BitVec 32) (blkno : Nat)
    (h : Prog.Halts (pioReadOne o pself a blkno) s ok s') :
    Reads (if ok then putSector a (o.sector (blkno % 2 ^ 28)) else id) s s' := by
  obtain ⟨ready, s₁, hwait, h⟩ := h.of_bind
  have h₁ := waitReady_reads o hwait
  cases ready with
  | false =>
    obtain ⟨rfl, rfl⟩ := h.of_pure
    exact h₁
  | true =>
    obtain ⟨_, s₂, hcmd, h⟩ := h.of_bind
    have h₂ : Reads id s₁ s₂ := by
      obtain ⟨-, rfl⟩ := hcmd.of_access
      refine ⟨rfl, [.read (pioTaskfile pself blkno)], rfl, fun c hc => ?_⟩
      exact ⟨_, List.mem_singleton.1 hc⟩
    obtain ⟨ready, s₃, hwait, h⟩ := h.of_bind
    have h₃ := (h₁.trans h₂).trans (waitReady_reads o hwait)
    cases ready with
    | false =>
      obtain ⟨rfl, rfl⟩ := h.of_pure
      exact h₃
    | true =>
      obtain ⟨_, s₄, hread, h⟩ := h.of_bind
      obtain ⟨_, s₅, hecc, h⟩ := h.of_bind
      obtain ⟨rfl, rfl⟩ := h.of_pure
      have h₄ : Reads (putSector a (o.sector (blkno % 2 ^ 28))) s₃ s₄ := by
        obtain ⟨-, rfl⟩ := hread.of_access
        refine ⟨?_, [], (List.append_nil _).symm, fun _ hc => absurd hc List.not_mem_nil⟩
        simp only
        rw [readWords_eq, pioTaskfile_lba]
      exact (h₃.trans h₄).trans (skipEcc_reads o hecc)

theorem pioFrom_reads (addr : BitVec 32) (block n b : Nat)
    (h : Prog.Halts (pioFrom o pself addr block n b) s ok s') :
    ∃ f, Reads f s s' ∧ (ok = true → f = storeSectors o.sector (addr + .ofNat 32 (512 * b))
      (block + b) n) := by
  induction n generalizing b s with
  | zero =>
    obtain ⟨rfl, rfl⟩ := h.of_pure
    exact ⟨id, .refl s', fun _ => rfl⟩
  | succ n ih =>
    obtain ⟨ok₁, s₁, hone, h⟩ := h.of_bind
    have h₁ := pioReadOne_reads pself o _ _ hone
    cases ok₁ with
    | false =>
      obtain ⟨rfl, rfl⟩ := h.of_pure
      exact ⟨id, h₁, fun hok => nomatch hok⟩
    | true =>
      obtain ⟨f, hf, heq⟩ := ih (b + 1) h
      refine ⟨_, h₁.trans hf, fun hok => ?_⟩
      funext m
      rw [heq hok, Nat.add_comm n 1, storeSectors_add, add_ofNat_add, Nat.add_assoc]
      have hlba : (block + b) % 2 ^ 32 % 2 ^ 28 = (block + b) % 2 ^ 28 := by omega
      simp only [storeSectors, if_true, blocksize, Function.comp_apply, Nat.mul_zero, Nat.add_zero,
        Nat.mul_one, Nat.mul_add, BitVec.add_zero, hlba]

theorem ataDiskReadBlocks_reads (addr : BitVec 32) (block count : Nat)
    (h : Prog.Halts (ataDiskReadBlocks o pself addr block count) s r s') :
    (∃ f, Reads f s s') ∧ ∀ n, r = .ok n →
      n = count ∧ s'.mem = storeSectors o.sector addr block count s.mem := by
  obtain ⟨ok, s₁, hpio, h⟩ := h.of_bind
  obtain ⟨rfl, rfl⟩ := h.of_pure
  obtain ⟨f, hf, heq⟩ := pioFrom_reads pself o addr block count 0 hpio
  refine ⟨⟨f, hf⟩, fun n hn => ?_⟩
  cases ok with
  | false => cases hn
  | true =>
    obtain rfl := Except.ok.inj hn
    refine ⟨rfl, ?_⟩
    rw [hf.mem, heq rfl, Nat.mul_zero, Nat.add_zero]
    simp

/-- Two states that differ in the status reads only. -/
def Polled (s s' : Mach) : Prop := s'.mem = s.mem ∧ s'.commands = s.commands

theorem waitStatus_polled (want wantClear : UInt8) (n : Nat) (s : Mach) :
    Polled s (waitStatus o want wantClear n s).2 := by
  induction n generalizing s with
  | zero => exact ⟨rfl, rfl⟩
  | succ n ih =>
    rw [waitStatus, readStatus]
    simp only
    split
    · exact ⟨rfl, rfl⟩
    · split
      · exact ⟨rfl, rfl⟩
      · exact ih _

theorem pollBmi_polled (n : Nat) (s : Mach) : Polled s (pollBmi o n s).2 := by
  induction n generalizing s with
  | zero => exact ⟨rfl, rfl⟩
  | succ n ih =>
    rw [pollBmi, readStatus]
    simp only
    split
    · exact ⟨rfl, rfl⟩
    · split
      · exact ⟨rfl, rfl⟩
      · exact ih _

/-- The memory after a transfer for `p`: the sectors, or changes in the memory of `p` alone. -/
def Moved (p : PrdEntry) (t : Taskfile) (m m' : Mem) : Bool → Prop
  | true => m' = storeSectors o.sector p.busAddr t.lba t.count m
  | false => ∀ x, p.busCount ≤ (x - p.busAddr).toNat → m' x = m x

theorem transferred_moved (p : PrdEntry) (t : Taskfile) (ok : Bool) (s : Mach) :
    Moved o p t s.mem (transferred o p t ok s).mem ok := by
  cases ok with
  | true => rfl
  | false =>
    intro x hx
    rw [transferred, Mach.setMem_mem, if_neg Bool.false_ne_true, if_neg (Nat.not_lt.2 hx)]

theorem transferred_commands (p : PrdEntry) (t : Taskfile) (ok : Bool) (s : Mach) :
    (transferred o p t ok s).commands = s.commands := by
  rw [transferred, Mach.setMem_commands]

theorem afterPoll_moved (p : PrdEntry) (t : Taskfile) (x : Bool × Mach) :
    Moved o p t x.2.mem (afterPoll o p t x).2.mem (afterPoll o p t x).1 ∧
      (afterPoll o p t x).2.commands = x.2.commands := by
  obtain ⟨ok, s⟩ := x
  cases ok with
  | false =>
    exact ⟨transferred_moved o p t false (readStatus o s).2,
      transferred_commands o p t false (readStatus o s).2⟩
  | true =>
    exact ⟨transferred_moved o p t (decide ((readStatus o (readStatus o s).2).1 &&& 0x81 = 0))
        (readStatus o (readStatus o s).2).2,
      transferred_commands o p t _ (readStatus o (readStatus o s).2).2⟩

theorem pollBmi_moved (p : PrdEntry) (t : Taskfile) (n : Nat) (s : Mach) :
    Moved o p t s.mem (afterPoll o p t (pollBmi o n s)).2.mem
        (afterPoll o p t (pollBmi o n s)).1 ∧
      (afterPoll o p t (pollBmi o n s)).2.commands = s.commands := by
  obtain ⟨hmem, hcmd⟩ := pollBmi_polled o n s
  obtain ⟨hmoved, hcommands⟩ := afterPoll_moved o p t (pollBmi o n s)
  rw [hmem] at hmoved
  exact ⟨hmoved, hcommands.trans hcmd⟩

theorem issueDma_moved (p : PrdEntry) (t : Taskfile) (s : Mach) :
    Moved o p t s.mem (issueDma o p t s).2.mem (issueDma o p t s).1 ∧
      (issueDma o p t s).2.commands = s.commands ++ [.readDma p t] := by
  rw [issueDma]
  exact pollBmi_moved o p t _ { s with commands := s.commands ++ [.readDma p t] }

/-- What `dma_read_one` does, up to the status reads. -/
structure OneRead (p : PrdEntry) (t : Taskfile) (s : Mach) (y : Bool × Mach) : Prop where
  moved : Moved o p t s.mem y.2.mem y.1
  commands : y.2.commands = s.commands ++ [.readDma p t] ∨ y.1 = false ∧ y.2.commands = s.commands

theorem OneRead.ifReady (hx : Polled s x.2) (h : ∀ s', Polled s s' → OneRead o p t s (f s')) :
    OneRead o p t s (Ide.ifReady f x) := by
  obtain ⟨ready, s'⟩ := x
  cases ready with
  | false => exact ⟨fun y _ => congrFun hx.1 y, .inr ⟨rfl, hx.2⟩⟩
  | true => exact h s' hx

theorem dmaReadOne_reads (buf : BitVec 32) (block count : Nat) (s : Mach) :
    OneRead o (prdEntry buf (blocksize * count % 2 ^ 32)) (dmaTaskfile pself block count) s
      (dmaReadOne o pself buf block count s) := by
  rw [dmaReadOne]
  refine .ifReady o (waitStatus_polled o _ _ _ s) fun s₁ h₁ => ?_
  refine .ifReady o ⟨(waitStatus_polled o _ _ _ s₁).1.trans h₁.1,
    (waitStatus_polled o _ _ _ s₁).2.trans h₁.2⟩ fun s₂ h₂ => ?_
  obtain ⟨hmoved, hcommands⟩ := issueDma_moved o (prdEntry buf (blocksize * count % 2 ^ 32))
    (dmaTaskfile pself block count) s₂
  rw [h₂.1] at hmoved
  rw [h₂.2] at hcommands
  exact ⟨hmoved, .inl hcommands⟩

/-- A chunk of `n` sectors from sector `off` of the request on, of 64 KiB at most, is described by
the count and the address of the PRD and by the taskfile. -/
def Describes (addr : BitVec 32) (block off n : Nat) (c : Command) : Prop :=
  ∃ p t, c = .readDma p t ∧ 0 < n ∧ blocksize * n ≤ 2 ^ 16 ∧
    p.busAddr = addr + .ofNat 32 (blocksize * off) ∧ p.busCount = blocksize * n ∧
    t = { pioTaskfile pself ((block + off) % 2 ^ 32) with seccnt := n } ∧ t.count = n

/-- Commands for chunks that follow each other from sector 0 to sector `e` of the request. -/
inductive Chunks (addr : BitVec 32) (block : Nat) : Nat → List Command → Prop
  | nil : Chunks addr block 0 []
  | snoc (h : Chunks addr block off l) (hc : Describes pself addr block off n c) :
      Chunks addr block (off + n) (l ++ [c])

theorem describes_chunk (addr : BitVec 32) (block off : Nat) (hpos : 0 < n) (hle : n ≤ 128) :
    Describes pself addr block off n
      (.readDma (prdEntry (addr + .ofNat 32 (off * blocksize)) (blocksize * n % 2 ^ 32))
        (dmaTaskfile pself ((block + off) % 2 ^ 32) n)) := by
  have hbytes : blocksize * n % 2 ^ 32 = blocksize * n := by
    rw [blocksize]
    omega
  have hcount : n % 256 = n := by omega
  refine ⟨_, _, rfl, hpos, ?_, ?_, ?_, ?_, ?_⟩
  · rw [blocksize]
    omega
  · rw [prdEntry_busAddr, Nat.mul_comm]
  · rw [hbytes, prdEntry_busCount _ (by rw [blocksize]; omega) (by rw [blocksize]; omega)]
  · rw [dmaTaskfile_eq, hcount]
  · rw [dmaTaskfile_eq, Taskfile.count]
    simp only [hcount]
    rw [if_neg (by omega)]

theorem Describes.moved {c : Command} (h : Describes pself addr block off n c)
    (hc : c = .readDma p t) (hm : Moved o p t m m' ok) :
    (ok = true →
      m' = storeSectors o.sector (addr + .ofNat 32 (blocksize * off)) (block + off) n m) ∧
      (ok = false → ∀ x, blocksize * n ≤ (x - (addr + .ofNat 32 (blocksize * off))).toNat →
        m' x = m x) := by
  obtain ⟨p', t', rfl, -, -, haddr, hbytes, ht, hcount⟩ := h
  obtain ⟨rfl, rfl⟩ := Command.readDma.inj hc
  have hlba : t'.lba = (block + off) % 2 ^ 28 := by
    have h := pioTaskfile_lba pself ((block + off) % 2 ^ 32)
    rw [Nat.mod_mod_of_dvd _ (by decide)] at h
    rw [ht, ← h]
    rfl
  constructor
  · rintro rfl
    have hm : m' = storeSectors o.sector p'.busAddr t'.lba t'.count m := hm
    rw [hm, haddr, hlba, hcount, storeSectors_mod]
  · rintro rfl x hx
    have hm : ∀ x, p'.busCount ≤ (x - p'.busAddr).toNat → m' x = m x := hm
    exact hm x (by rw [hbytes, haddr]; exact hx)

/-- What the loop of DMA transfers leaves when it has read `done` sectors: these sectors, anything
in the memory for the others, and commands for chunks of the request. -/
structure Progress (addr : BitVec 32) (block count : Nat) (s : Mach) (done : Nat) (s' : Mach) :
    Prop where
  le : done ≤ count
  mem : ∀ x, (x - (addr + .ofNat 32 (blocksize * done))).toNat < blocksize * (count - done) ∨
    s'.mem x = storeSectors o.sector addr block done s.mem x
  commands : ∃ l e, s'.commands = s.commands ++ l ∧ Chunks pself addr block e l ∧ e ≤ count

/-- What holds before each round of the loop. -/
structure Ready (addr : BitVec 32) (block count : Nat) (s : Mach) (done : Nat) (s' : Mach) :
    Prop where
  le : done ≤ count
  mem : s'.mem = storeSectors o.sector addr block done s.mem
  commands : ∃ l, s'.commands = s.commands ++ l ∧ Chunks pself addr block done l

theorem Ready.progress (h : Ready pself o addr block count s done s') :
    Progress pself o addr block count s done s' := by
  obtain ⟨l, hl, hchunks⟩ := h.commands
  exact ⟨h.le, fun x => .inr (congrFun h.mem x), l, done, hl, hchunks, h.le⟩

theorem Ready.round (h : Ready pself o addr block count s done s') (hlt : done < count)
    (hn : n = min (count - done) maxPerDma)
    (hy : y = dmaReadOne o pself (addr + .ofNat 32 (done * blocksize)) ((block + done) % 2 ^ 32)
      n s') :
    (y.1 = true → Ready pself o addr block count s (done + n) y.2) ∧
      (y.1 = false → Progress pself o addr block count s done y.2) := by
  have hmax : maxPerDma = 128 := rfl
  have hpos : 0 < n := by omega
  have hle : n ≤ 128 := by omega
  have hdesc := describes_chunk pself addr block done hpos hle
  obtain ⟨hmoved, hcommands⟩ := dmaReadOne_reads pself o (addr + .ofNat 32 (done * blocksize))
    ((block + done) % 2 ^ 32) n s'
  rw [← hy] at hmoved hcommands
  obtain ⟨hok, hfail⟩ := hdesc.moved pself o rfl hmoved
  obtain ⟨l, hl, hchunks⟩ := h.commands
  have hsnoc := hchunks.snoc hdesc
  constructor
  · intro htrue
    refine ⟨by omega, ?_, _, ?_, hsnoc⟩
    · rw [hok htrue, h.mem, storeSectors_add, blocksize]
    · obtain hcmd | ⟨hfalse, -⟩ := hcommands
      · rw [hcmd, hl, List.append_assoc]
      · rw [htrue] at hfalse
        cases hfalse
  · intro hfalse
    refine ⟨h.le, fun x => ?_, ?_⟩
    · by_cases hin : (x - (addr + .ofNat 32 (blocksize * done))).toNat < blocksize * n
      · left
        rw [blocksize] at hin ⊢
        omega
      · exact .inr ((hfail hfalse x (Nat.not_lt.1 hin)).trans (congrFun h.mem x))
    · obtain hcmd | ⟨-, hcmd⟩ := hcommands
      · exact ⟨_, done + n, by rw [hcmd, hl, List.append_assoc], hsnoc, by omega⟩
      · exact ⟨l, done, hcmd.trans hl, hchunks, h.le⟩

theorem dmaLoop_progress (addr : BitVec 32) (block count : Nat) (s : Mach) :
    Prog.Returns (dmaLoop o pself addr block count 0) s (Progress pself o addr block count s) := by
  have hstart : Ready pself o addr block count s 0 s :=
    ⟨Nat.zero_le count, rfl, [], (List.append_nil _).symm, .nil⟩
  refine .loop (Ready pself o addr block count s) (count - ·) (fun done s' h => ?_) hstart
  refine .access ?_
  by_cases hlt : done < count
  · have hround := h.round pself o hlt rfl rfl
    generalize hy : dmaReadOne o pself (addr + .ofNat 32 (done * blocksize))
      ((block + done) % 2 ^ 32) (min (count - done) maxPerDma) s' = y at hround
    obtain ⟨ok, s''⟩ := y
    simp only [hy, if_pos hlt]
    cases ok with
    | true =>
      have hmax : maxPerDma = 128 := rfl
      exact ⟨hround.1 rfl, by simp only; omega⟩
    | false => exact hround.2 rfl
  · simp only [if_neg hlt]
    exact h.progress

/-- The rest of the request behind the sectors that have been transferred, read by PIO. -/
def pioRest (addr : BitVec 32) (block count done : Nat) : Op (Except Retcode Nat) :=
  ataDiskReadBlocks o pself (addr + .ofNat 32 (done * blocksize)) ((block + done) % 2 ^ 32)
    (count - done)

/-- The PIO read that `f_dma_read_blocks` hands over to: of everything where there is no bus master,
else of the rest. -/
inductive HandsOver (addr : BitVec 32) (block count : Nat) (s : Mach) :
    Op (Except Retcode Nat) → Mach → Prop
  | all (hbmi : pself.bmi = 0) :
      HandsOver addr block count s (ataDiskReadBlocks o pself addr block count) s
  | rest (hrun : Prog.Halts (dmaLoop o pself addr block count 0) s done s₁) (hlt : done < count) :
      HandsOver addr block count s (pioRest pself o addr block count done) s₁

/-- A run of `f_dma_read_blocks` against the reads of `f_ata_disk_read_blocks` for the same
arguments. -/
structure Refines (addr : BitVec 32) (block count : Nat) (s : Mach) (r : Except Retcode Nat)
    (s' : Mach) : Prop where
  /-- It leaves the error of the PIO read that it hands over to, or the memory and the count of any
  PIO read that succeeds. -/
  result : (∃ p s₁ e, HandsOver pself o addr block count s p s₁ ∧ r = .error e ∧
      Prog.Halts p s₁ (.error e) s') ∨
    ∀ (o' : Hardware) s₀ n s₀', o'.sector = o.sector → s₀.mem = s.mem →
      Prog.Halts (ataDiskReadBlocks o' pself addr block count) s₀ (.ok n) s₀' →
        r = .ok n ∧ s'.mem = s₀'.mem
  /-- Its DMA commands are for chunks that follow each other; then there are PIO reads only. -/
  commands : ∃ l e pio, s'.commands = s.commands ++ l ++ pio ∧ Chunks pself addr block e l ∧
    e ≤ count ∧ ∀ c ∈ pio, ∃ t, c = .read t

/-- A run that has stored the sectors and pushed their number has the result of the PIO read. -/
theorem same_result {r : Except Retcode Nat} {s s' s₀ s₀' : Mach} (hr : r = .ok count)
    (hmem : s'.mem = storeSectors o.sector addr block count s.mem) (o' : Hardware)
    (hsector : o'.sector = o.sector) (h₀ : s₀.mem = s.mem)
    (hpio : Prog.Halts (ataDiskReadBlocks o' pself addr block count) s₀ (.ok n) s₀') :
    r = .ok n ∧ s'.mem = s₀'.mem := by
  obtain ⟨rfl, hmem₀⟩ := (ataDiskReadBlocks_reads pself o' addr block count hpio).2 n rfl
  exact ⟨hr, by rw [hmem, hmem₀, hsector, h₀]⟩

theorem storeSectors_word (sector : Nat → Nat → UInt8) (a : BitVec 32) (lba n : Nat) (m : Mem) :
    storeSectors sector a (lba % 2 ^ 32) n m = storeSectors sector a lba n m := by
  rw [← storeSectors_mod, Nat.mod_mod_of_dvd _ (by decide), storeSectors_mod]

/-- The PIO read of the rest completes what the DMA transfers have left. -/
theorem Progress.completes {s' : Mach} (h : Progress pself o addr block count s done s₁)
    (hmem : s'.mem = storeSectors o.sector (addr + .ofNat 32 (done * blocksize))
      ((block + done) % 2 ^ 32) (count - done) s₁.mem) :
    s'.mem = storeSectors o.sector addr block count s.mem := by
  have hsplit := storeSectors_add o.sector addr block done (count - done) s.mem
  rw [Nat.add_sub_cancel' h.le] at hsplit
  rw [hmem, hsplit, storeSectors_word, Nat.mul_comm, blocksize]
  funext x
  exact storeSectors_congr o.sector _ _ _ x (h.mem x)

theorem Progress.refines (h : Progress pself o addr block count s done s₁)
    (hloop : Prog.Halts (dmaLoop o pself addr block count 0) s done s₁)
    (hrun : Prog.Halts (fallback o pself addr block count done) s₁ r s') :
    Refines pself o addr block count s r s' := by
  obtain ⟨l, e, hl, hchunks, he⟩ := h.commands
  by_cases hlt : done < count
  · rw [fallback, if_pos hlt] at hrun
    obtain ⟨r', s₂, hpio, hpure⟩ := hrun.of_bind
    obtain ⟨rfl, rfl⟩ := hpure.of_pure
    obtain ⟨⟨f, hf⟩, hok⟩ := ataDiskReadBlocks_reads pself o _ _ _ hpio
    obtain ⟨pio, hpioc, hreads⟩ := hf.commands
    refine ⟨?_, l, e, pio, by rw [hpioc, hl], hchunks, he, hreads⟩
    cases r' with
    | error e => exact .inl ⟨_, s₁, e, .rest hloop hlt, rfl, hpio⟩
    | ok n =>
      obtain ⟨rfl, hmem⟩ := hok n rfl
      have hcount : done + (count - done) = count := Nat.add_sub_cancel' h.le
      exact .inr fun o' s₀ n s₀' => same_result pself o (congrArg Except.ok hcount)
        (h.completes pself o hmem) o'
  · rw [fallback, if_neg hlt] at hrun
    obtain ⟨rfl, rfl⟩ := hrun.of_pure
    obtain rfl : done = count := Nat.le_antisymm h.le (Nat.not_lt.1 hlt)
    refine ⟨.inr fun o' s₀ n s₀' => same_result pself o rfl ?_ o', l, e, [],
      by rw [hl, List.append_nil], hchunks, he, fun c hc => absurd hc List.not_mem_nil⟩
    funext x
    refine (h.mem x).resolve_left ?_
    rw [Nat.sub_self, Nat.mul_zero]
    exact Nat.not_lt_zero _

/-- Each run of `f_dma_read_blocks` refines the PIO read, and runs end unless the PIO read that they
hand over to does not. -/
theorem dmaReadBlocks_refines (addr : BitVec 32) (block count : Nat) (s : Mach) :
    (∀ r s', Prog.Halts (dmaReadBlocks o pself addr block count) s r s' →
      Refines pself o addr block count s r s') ∧
    (Prog.Ends (dmaReadBlocks o pself addr block count) s ∨
      ∃ p s₁, HandsOver pself o addr block count s p s₁ ∧ Prog.Diverges p s₁) := by
  rw [dmaReadBlocks]
  by_cases hbmi : pself.bmi = 0
  · rw [if_pos hbmi]
    refine ⟨fun r s' hrun => ?_, (Prog.halts_or_diverges _ s).imp id fun hdiv =>
      ⟨_, s, .all hbmi, hdiv⟩⟩
    obtain ⟨⟨f, hf⟩, hok⟩ := ataDiskReadBlocks_reads pself o _ _ _ hrun
    obtain ⟨pio, hpioc, hreads⟩ := hf.commands
    refine ⟨?_, [], 0, pio, by rw [hpioc, List.append_nil], .nil, Nat.zero_le count, hreads⟩
    cases r with
    | error e => exact .inl ⟨_, s, e, .all hbmi, rfl, hrun⟩
    | ok n =>
      obtain ⟨rfl, hmem⟩ := hok n rfl
      exact .inr fun o' s₀ n s₀' => same_result pself o rfl hmem o'
  · rw [if_neg hbmi]
    by_cases hzero : count = 0
    · subst hzero
      rw [if_pos rfl]
      refine ⟨fun r s' hrun => ?_, .inl (.pure _ s)⟩
      obtain ⟨rfl, rfl⟩ := hrun.of_pure
      exact ⟨.inr fun o' s₀ n s₀' => same_result pself o rfl rfl o', [], 0, [],
        by rw [List.append_nil, List.append_nil], .nil, Nat.le_refl 0, fun c hc =>
          absurd hc List.not_mem_nil⟩
    · rw [if_neg hzero]
      obtain ⟨done, s₁, hloop, hprogress⟩ := dmaLoop_progress pself o addr block count s
      refine ⟨fun r s' hrun => ?_, ?_⟩
      · rw [hloop.bind_iff] at hrun
        exact hprogress.refines pself o hloop hrun
      · by_cases hlt : done < count
        · obtain ⟨r, s', hpio⟩ | hdiv :=
            Prog.halts_or_diverges (pioRest pself o addr block count done) s₁
          · left
            refine hloop.bind_ends ?_
            rw [fallback, if_pos hlt]
            exact hpio.bind_ends (.pure _ _)
          · exact .inr ⟨_, s₁, .rest hloop hlt, hdiv⟩
        · left
          refine hloop.bind_ends ?_
          rw [fallback, if_neg hlt]
          exact .pure _ _

end

end Pegasos2.Ide
