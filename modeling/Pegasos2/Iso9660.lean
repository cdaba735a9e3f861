import Pegasos2.AmigaVolume

namespace Pegasos2.Fs
open Program
set_option autoImplicit true

namespace Iso

def blockSize : Nat := 2048

/-- The variables of the loop of `iso_read_blocks`: `done` is how far `buf` has advanced. -/
structure Pieces where
  loc : Nat
  len : Nat
  done : Nat
  buf : Buf
  iobuf : Buf

def Pieces.take (s : Pieces) (iosize : Nat) (iobuf : Buf) : Pieces where
  loc := u64 (s.loc + min iosize s.len)
  len := s.len - min iosize s.len
  done := s.done + min iosize s.len
  buf := s.buf.copy s.done iobuf 0 (min iosize s.len)
  iobuf := iobuf

def readRound (d : Disk) (iosize : Nat) (s : Pieces) : Io (Pieces ⊕ (Retcode × Buf × Buf)) := do
  let (ret, iobuf) ← filesysReadBytes d s.loc iosize s.iobuf
  pure (if ret ≠ .noError then .inr (ret, s.buf, iobuf)
    else if (s.take iosize iobuf).len = 0 then .inr (ret, (s.take iosize iobuf).buf, iobuf)
    else .inl (s.take iosize iobuf))

/-- The return code, and what is in `buf` and `iobuf` afterwards. -/
def isoReadBlocks (d : Disk) (loc len : Nat) (buf : Buf) (iosize : Nat) (iobuf : Buf) :
    Io (Retcode × Buf × Buf) :=
  .loop (readRound d (min iosize blockSize)) ⟨loc, len, 0, buf, iobuf⟩

/-- A pointer to a `struct iso_directory`. -/
structure Dir where
  buf : Buf
  off : Nat

namespace Dir

def length (p : Dir) : Nat := p.buf.nat p.off

def extent (p : Dir) : Nat := le32 p.buf (p.off + 2)

def size (p : Dir) : Nat := le32 p.buf (p.off + 10)

def flags (p : Dir) : Nat := p.buf.nat (p.off + 25)

def name (p : Dir) : List UInt8 := bytes p.buf (p.off + 33) (p.buf.nat (p.off + 32))

/-- The flag `ISO_DIRECTORY`. -/
def isDirectory (p : Dir) : Bool := p.flags.testBit 1

end Dir

def tolower (c : UInt8) : UInt8 := if 0x41 ≤ c ∧ c ≤ 0x5A then c + 0x20 else c

def compareStrs (s1 s2 : List UInt8) : Bool :=
  s1.length == s2.length && s1.map tolower == s2.map tolower

/-- The search of a directory for a name, from the record at `sz` on, for at most `n` records. A
record takes at least a byte. -/
def search (buf : Buf) (size blocksize : Nat) (name : List UInt8) : (n sz : Nat) → Option Nat
  | 0, _ => none
  | n + 1, sz =>
    if sz < size then
      let dir : Dir := ⟨buf, sz⟩
      let length := dir.length
      if compareStrs dir.name name then (if length = 0 then none else some sz)
      else
        let dir : Dir := ⟨buf, sz + length⟩
        -- skip to the next block if this is the end of one
        let length := if dir.length = 0 then blocksize - sz % blocksize else length
        search buf size blocksize name n (sz + length)
    else none

/-- The bytes of a part of a path. -/
def pathBytes (s : List Char) : List UInt8 := s.map fun c => .ofNat c.toNat

/-- The separator that a path is split at: the first slash, or else the first backslash. -/
def separator (path : List Char) : Char := if '/' ∈ path then '/' else '\\'

/-- The next component of a path, and the path behind it. -/
def nextName (path : List Char) : List Char × List Char :=
  (path.takeWhile (· != separator path), (path.dropWhile (· != separator path)).tail)

def skipRoot : List Char → List Char
  | '/' :: path => path
  | '\\' :: path => path
  | path => path

/-- What `malloc` returns for a size: a buffer with any contents, or `NULL`. -/
abbrev Heap := Nat → Option Buf

section Walk

variable (d : Disk) (heap : Heap) (q : Call) (blocksize : Nat)

/-- The variables of the loop of `iso_walk`. `extent` and `size` are those of `dir`. -/
structure Pos where
  dir : Dir
  path : List Char
  iobuf : Buf

/-- The blocks of a record, read into `buf`. -/
def readExtent (dir : Dir) (buf iobuf : Buf) : Io (Retcode × Buf × Buf) :=
  isoReadBlocks d (u32 (dir.extent * blocksize)) dir.size buf q.size iobuf

/-- The directory at the end of a path, read for its listing. -/
def listDirectory (s : Pos) : Io Reply :=
  match heap s.dir.size with
  | none => pure (q.reply .eOutOfMemory)
  | some buf => do
    let (ret, _, _) ← readExtent d q blocksize s.dir buf s.iobuf
    pure (q.reply (if ret ≠ .noError then .eNoFile else .noError))

/-- The file at the end of a path. -/
def loadFile (s : Pos) : Io Reply := do
  let (ret, retbuf, _) ← readExtent d q blocksize s.dir q.retbuf s.iobuf
  pure (if ret ≠ .noError then { q.reply .eNoFile with retbuf }
    else { q.reply .noError with retbuf, val := s.dir.size })

/-- A round of the loop of `iso_walk` after the search for the component. -/
def afterSearch (s : Pos) : Io (Pos ⊕ Reply) :=
  if s.path ≠ [] then pure (.inl s)
  else if s.dir.isDirectory then
    if q.what ≠ .list then pure (.inr (q.reply .eNoFile))
    else do
      let r ← listDirectory d heap q blocksize s
      pure (.inr r)
  else if q.what = .list then pure (.inr (q.reply .noError))
  else do
    let r ← loadFile d q blocksize s
    pure (.inr r)

/-- The search of the directory `dir` for the component `name`. -/
def enterName (dir : Dir) (name path : List Char) (iobuf : Buf) : Io (Pos ⊕ Reply) :=
  match heap dir.size with
  | none => pure (.inr (q.reply .eOutOfMemory))
  | some buf => do
    let (ret, buf, iobuf) ← readExtent d q blocksize dir buf iobuf
    if ret ≠ .noError then pure (.inr (q.reply .eNoFile))
    else
      match search buf dir.size blocksize (pathBytes name) dir.size 0 with
      | none => pure (.inr (q.reply .eNoFile))
      | some off => afterSearch d heap q blocksize ⟨⟨buf, off⟩, path, iobuf⟩

def walkRound (s : Pos) : Io (Pos ⊕ Reply) :=
  if s.dir.isDirectory then
    if (nextName s.path).1 = [] then
      afterSearch d heap q blocksize { s with path := (nextName s.path).2 }
    else enterName d heap q blocksize s.dir (nextName s.path).1 (nextName s.path).2 s.iobuf
  else pure (.inr (q.reply .eNoFile))

end Walk

/-- `iso_walk` with the primary descriptor `ipd`. -/
def isoWalk (d : Disk) (heap : Heap) (q : Call) (ipd iobuf : Buf) : Io Reply :=
  .loop (walkRound d heap q (le16 ipd 128)) ⟨⟨ipd, 156⟩, skipRoot q.path, iobuf⟩

/-- `CD001`. -/
def isoStandardId : List UInt8 := [0x43, 0x44, 0x30, 0x30, 0x31]

/-- `iso9660` with a volume descriptor. -/
def withDescriptor (d : Disk) (heap : Heap) (q : Call) (ipd iobuf : Buf) : Io Reply :=
  match q.what with
  | .probe =>
    pure { q.reply .rEnd with probed := q.probed ++ ",iso9660".toList, val := q.loc }
  | .list => do
    let r ← isoWalk d heap q ipd iobuf
    pure { r with ret := if r.ret = .noError then .rEnd else r.ret }
  | .load =>
    if q.path ≠ [] then do
      let r ← isoWalk d heap q ipd iobuf
      pure { r with ret := if r.ret = .noError then .rEnd else r.ret }
    else pure (q.reply .rEnd)

/-- The loop over the blocks that may hold the volume descriptor. -/
def findDescriptor (d : Disk) (heap : Heap) (q : Call) : List Nat → Buf → Buf → Io Reply
  | [], _, _ => pure (q.reply .eNoFilesys)
  | bnum :: l, ipd, iobuf => do
    let (ret, ipd, iobuf) ←
      isoReadBlocks d (u64 (q.loc + bnum * blockSize)) blockSize ipd q.size iobuf
    if ret ≠ .noError then pure (q.reply ret)
    else if bytes ipd 1 5 = isoStandardId then withDescriptor d heap q ipd iobuf
    else findDescriptor d heap q l ipd iobuf

/-- `iso9660`, with `ipd` on the stack. -/
def iso9660 (d : Disk) (heap : Heap) (ipd : Buf) (q : Call) : Io Reply :=
  findDescriptor d heap q ((List.range 16).map (16 + ·)) ipd q.buf

def strSize : Nat := 256

/-- The path that `iso9660_compat_action` hands on: up to its first semicolon, if that is neither
at its start nor too far away. -/
def normalized (path : List Char) : List Char :=
  if ';' ∈ path ∧ 0 < (path.takeWhile (· != ';')).length ∧
      (path.takeWhile (· != ';')).length < strSize then path.takeWhile (· != ';')
  else path

def iso9660CompatAction (d : Disk) (heap : Heap) (ipd : Buf) (q : Call) : Io Reply :=
  iso9660 d heap ipd { q with path := normalized q.path }

end Iso
end Pegasos2.Fs
