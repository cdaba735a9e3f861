import Pegasos2.Bytes

namespace Pegasos2.BootKernel
set_option autoImplicit true

/-- Memory as the processor addresses it, with the addresses stored to so far, newest first. -/
structure Ram where
  mem : Nat → UInt8
  stored : List Nat

/-- The bytes a pointer sees. Pointer arithmetic wraps at 32 bits. -/
def view (m : Nat → UInt8) (p : Nat) : Buf := fun i => m ((p + i) % 2 ^ 32)

def Ram.store (r : Ram) (a : Nat) (v : UInt8) : Ram :=
  ⟨Function.update r.mem (a % 2 ^ 32) v, a % 2 ^ 32 :: r.stored⟩

def minPhentsz : Nat := 32
def maxPhentsz : Nat := 256
def maxPhnum : Nat := 32
def flashRangeStart : Nat := 0xFFF00000

/-- The diagnostics `elf32_ppc_be_load` prints, one for each way to refuse an image. -/
inductive Reject where
  | headerValidation
  | noProgramHeaders
  | badPhentsz (phentsz : Nat)
  | phnumExceedsCap (phnum : Nat)
  | tableOverflow
  | fileszAboveMemsz (i filesz memsz : Nat)
  | sourceOverflow (i : Nat)
  | destinationOverflow (i : Nat)
  | overlapsFlash (i vaddr : Nat)
  | entryOutside (entry : Nat)
  deriving DecidableEq, Repr

/-- 32-bit sum and whether it wrapped. -/
def u32AddOvf (a b : Nat) : Nat × Bool :=
  let out := (a + b) % 2 ^ 32
  (out, decide (out < a))

def elf32PpcBeIsExec (m : Nat → UInt8) (load loadlen : Nat) : Bool :=
  let eh := view m load
  if load = 0 ∨ loadlen < 32 then false
  else if eh 0 ≠ 0x7F ∨ eh 1 ≠ 0x45 ∨ eh 2 ≠ 0x4C ∨ eh 3 ≠ 0x46 then false
  else if eh 4 ≠ 1 then false
  else if eh 5 ≠ 2 then false
  else if eh 6 ≠ 1 then false
  else if be16 eh 16 ≠ 2 ∧ be16 eh 16 ≠ 3 then false
  else if be16 eh 18 ≠ 20 then false
  else true

/-- The ELF header fields the loader uses. -/
structure Ehdr where
  entry : Nat
  phoff : Nat
  phentsz : Nat
  phnum : Nat
  deriving DecidableEq, Repr

def ehdr (eh : Buf) : Ehdr := ⟨be32 eh 24, be32 eh 28, be16 eh 42, be16 eh 44⟩

/-- The program-header fields the loader uses. -/
structure Phdr where
  type : Nat
  offset : Nat
  vaddr : Nat
  filesz : Nat
  memsz : Nat
  deriving DecidableEq, Repr

/-- Program header `i` of the table, read through the image pointer. -/
def phdr (eh : Buf) (e : Ehdr) (i : Nat) : Phdr :=
  let ph := e.phoff + i * e.phentsz
  ⟨be32 eh ph, be32 eh (ph + 4), be32 eh (ph + 8), be32 eh (ph + 16), be32 eh (ph + 20)⟩

/-- The entry gets past the two `continue`s of both passes. -/
def Phdr.Occupies (h : Phdr) : Prop := h.type = 1 ∧ h.memsz ≠ 0

instance (h : Phdr) : Decidable h.Occupies := inferInstanceAs (Decidable (_ ∧ _))

/-- What the validation loop checks of entry `i`. The accumulator is `entry_in_phdr` and
`high_end`. -/
def Phdr.check (h : Phdr) (e : Ehdr) (acc : Bool × Nat) (i : Nat) : Except Reject (Bool × Nat) :=
  if h.type ≠ 1 then .ok acc
  else if h.memsz = 0 then .ok acc
  else if h.filesz > h.memsz then .error (.fileszAboveMemsz i h.filesz h.memsz)
  else if (u32AddOvf h.offset h.filesz).2 then .error (.sourceOverflow i)
  else
    let dst := u32AddOvf h.vaddr h.memsz
    if dst.2 then .error (.destinationOverflow i)
    else if h.vaddr ≥ flashRangeStart ∨ dst.1 > flashRangeStart then
      .error (.overlapsFlash i h.vaddr)
    else .ok
      (if e.entry ≥ h.vaddr ∧ e.entry < dst.1 then true else acc.1,
        if dst.1 > acc.2 then dst.1 else acc.2)

/-- The body of the validation loop. -/
def checkPhdr (eh : Buf) (e : Ehdr) (acc : Bool × Nat) (i : Nat) : Except Reject (Bool × Nat) :=
  (phdr eh e i).check e acc i

/-- Pass 1 over the first `n` program headers. -/
def pass1 (eh : Buf) (e : Ehdr) : Nat → Except Reject (Bool × Nat)
  | 0 => .ok (false, 0)
  | n + 1 => (pass1 eh e n).bind fun acc => checkPhdr eh e acc n

/-- Everything before pass 2: the header checks and pass 1, giving `high_end`. -/
def validate (m : Nat → UInt8) (load loadlen : Nat) : Except Reject (Ehdr × Nat) :=
  let eh := view m load
  let e := ehdr eh
  if elf32PpcBeIsExec m load loadlen = false then .error .headerValidation
  else if e.phoff = 0 ∨ e.phnum = 0 then .error .noProgramHeaders
  else if e.phentsz < minPhentsz ∨ e.phentsz > maxPhentsz then .error (.badPhentsz e.phentsz)
  else if e.phnum > maxPhnum then .error (.phnumExceedsCap e.phnum)
  else if (u32AddOvf e.phoff (e.phnum * e.phentsz)).2 then .error .tableOverflow
  else (pass1 eh e e.phnum).bind fun acc =>
    if acc.1 = false then .error (.entryOutside e.entry) else .ok (e, acc.2)

/-- `for (j = 0; j < n; j++) dst[j] = val(j)`, forwards and one byte at a time. The value may
be read from the memory as the earlier turns left it. -/
def storeLoop (dst : Nat) (val : (Nat → UInt8) → Nat → UInt8) : Nat → Ram → Ram
  | 0, r => r
  | n + 1, r =>
    let r' := storeLoop dst val n r
    r'.store (dst + n) (val r'.mem n)

def copyLoop (dst src : Nat) : Nat → Ram → Ram := storeLoop dst fun m j => view m src j

def zeroLoop (dst : Nat) : Nat → Ram → Ram := storeLoop dst fun _ _ => 0

/-- The two store loops of pass 2 for one program header. -/
def place (load : Nat) (h : Phdr) (r : Ram) : Ram :=
  zeroLoop (h.vaddr + h.filesz) (h.memsz - h.filesz)
    (copyLoop h.vaddr (load + h.offset) h.filesz r)

/-- The body of pass 2. It reads the program header from the memory as it is now. -/
def placePhdr (load : Nat) (e : Ehdr) (r : Ram) (i : Nat) : Ram :=
  let h := phdr (view r.mem load) e i
  if h.Occupies then place load h r else r

/-- Pass 2 over the first `n` program headers. -/
def pass2 (load : Nat) (e : Ehdr) : Nat → Ram → Ram
  | 0, r => r
  | n + 1, r => placePhdr load e (pass2 load e n r) n

/-- The objects `elf32_ppc_be_load` may change: memory, `*entrypoint` and
`g_boot_image_high_end`. -/
structure LoadState where
  mem : Nat → UInt8
  entrypoint : Nat
  highEnd : Nat

structure LoadResult where
  ret : Retcode
  diag : Option Reject
  state : LoadState
  stores : List Nat

def elf32PpcBeLoad (s : LoadState) (load loadlen : Nat) : LoadResult :=
  match validate s.mem load loadlen with
  | .error d => ⟨.eBadImage, some d, s, []⟩
  | .ok (e, highEnd) =>
    let r := pass2 load e e.phnum ⟨s.mem, []⟩
    ⟨.noError, none, ⟨r.mem, e.entry, highEnd⟩, r.stored⟩

/-- The load address `machine_init_load` fixes. -/
def machineInitLoad : Nat := 0x00400000

end Pegasos2.BootKernel
