import Pegasos2.Bytes
import Pegasos2.Program

namespace Pegasos2.Fs
open Program
set_option autoImplicit true

def u32 (n : Nat) : Nat := n % 2 ^ 32

def u64 (n : Nat) : Nat := n % 2 ^ 64

/-- Why a read of the disk has failed. -/
inductive Fault where
  | seek
  | read
  | device (code : Nat)
  deriving DecidableEq

def Fault.code : Fault → Retcode
  | .seek => .eSeekError
  | .read => .eReadError
  | .device code => .device code

/-- A read that fails leaves anything in the buffer. -/
inductive Outcome where
  | ok (data : Buf)
  | fail (fault : Fault) (left : Buf)

/-- What the disk does with a read of `size` bytes at `loc`, `time` reads after the start. -/
structure Disk where
  read : (time loc size : Nat) → Outcome

/-- A disk that always holds the bytes of `image`, although reads may fail. -/
structure ImageDisk extends Disk where
  image : Nat → UInt8
  faithful : ∀ time loc size data, read time loc size = .ok data →
    ∀ i < size, data i = image (loc + i)

def Disk.ofImage (image : Nat → UInt8) : ImageDisk where
  read _ loc _ := .ok fun i => image (loc + i)
  image := image
  faithful _ _ _ _ h i _ := congrFun (Outcome.ok.inj h).symm i

/-- A disk that always holds the bytes of `image`, and answers a read in the same way whenever it
is made. -/
structure Drive extends ImageDisk where
  steady : ∀ time time' loc size, read time loc size = read time' loc size

/-- The file systems of `g_filesys`. -/
inductive Fsys where
  | iso9660Compat
  | dosPartition
  | amigaRdb
  | amigaFfs
  | amigaSfs
  | amigaPfs3
  | fsExfat
  | dosFat
  | linuxExt2fs
  deriving DecidableEq, Repr

/-- `g_amiga_part_byte_size` and `g_amiga_part_block_size`. -/
structure Hint where
  byteSize : Nat
  blockSize : Nat
  deriving DecidableEq, Repr

/-- What is recorded of a run: that `amiga_rdb` publishes a hint, that `dos_partition` calls
`file_system` for the slice at `loc`, from inside the RDB partition at `slice` if there is one, and
that `amiga_ffs` is called. -/
inductive Event where
  | publish (hint : Hint)
  | enter (loc : Nat) (slice : Option Nat)
  | ffs (loc : Nat) (hint : Hint) (slice : Nat)
  deriving DecidableEq, Repr

/-- The global state of the file system code: the number of reads so far, the geometry hint with
the start of the partition that it describes, the file systems whose `action` is NULL, and what has
happened so far. -/
structure World where
  reads : Nat
  hint : Hint
  slice : Nat
  disabled : List Fsys
  log : List Event

abbrev Io := Prog World

def filesysReadBytes (d : Disk) (loc size : Nat) (buf : Buf) : Io (Retcode × Buf) :=
  .access fun w =>
    (match d.read w.reads loc size with
      | .ok data => (.noError, buf.copy 0 data 0 size)
      | .fail fault left => (fault.code, left),
      { w with reads := w.reads + 1 })

def setHint (hint : Hint) : Io Unit := .access fun w => ((), { w with hint := hint })

/-- The hint is set for the partition at `slice`. -/
def publish (hint : Hint) (slice : Nat) : Io Unit :=
  .access fun w => ((), { w with hint, slice, log := w.log ++ [.publish hint] })

def getHint : Io Hint := .access fun w => (w.hint, w)

inductive Action where
  | probe
  | list
  | load
  deriving DecidableEq, Repr

/-- The arguments of a `Filesys` action. `probed` is the string in `retbuf` while probing. -/
structure Call where
  what : Action
  path : List Char
  loc : Nat
  start : Nat
  buf : Buf
  size : Nat
  retbuf : Buf
  probed : List Char
  val : Nat

/-- The result of a `Filesys` action, with what `retbuf` and `*val` hold after it. -/
structure Reply where
  ret : Retcode
  retbuf : Buf
  probed : List Char
  val : Nat

/-- A return that leaves `retbuf` and `*val` as they are. -/
def Call.reply (q : Call) (ret : Retcode) : Reply := ⟨ret, q.retbuf, q.probed, q.val⟩

theorem Fault.code_ne (f : Fault) :
    f.code ≠ .noError ∧ f.code ≠ .rEnd ∧ f.code ≠ .eNoFilesys := by
  cases f <;> exact ⟨Retcode.noConfusion, Retcode.noConfusion, Retcode.noConfusion⟩

theorem filesysReadBytes_halts (d : Disk) (loc size : Nat) (buf : Buf) (w : World) :
    (∃ data, d.read w.reads loc size = .ok data ∧
      Prog.Halts (filesysReadBytes d loc size buf) w (.noError, buf.copy 0 data 0 size)
        { w with reads := w.reads + 1 }) ∨
      ∃ fault left, d.read w.reads loc size = .fail fault left ∧
        Prog.Halts (filesysReadBytes d loc size buf) w (fault.code, left)
          { w with reads := w.reads + 1 } := by
  have hrun := Prog.Halts.access (fun w : World =>
    ((match d.read w.reads loc size with
      | .ok data => (Retcode.noError, buf.copy 0 data 0 size)
      | .fail fault left => (fault.code, left)), { w with reads := w.reads + 1 })) w
  cases h : d.read w.reads loc size with
  | ok data =>
    rw [h] at hrun
    exact .inl ⟨data, rfl, hrun⟩
  | fail fault left =>
    rw [h] at hrun
    exact .inr ⟨fault, left, rfl, hrun⟩

end Pegasos2.Fs
