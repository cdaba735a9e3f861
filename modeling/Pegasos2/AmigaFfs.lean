import Pegasos2.AmigaVolume

namespace Pegasos2.Fs
open Program
set_option autoImplicit true

namespace Ffs

def tHeader : Nat := 2

def tData : Nat := 8

def tList : Nat := 16

def stRoot : Nat := 1

def stUserdir : Nat := 2

/-- `-3`, as a long. -/
def stFile : Nat := 0xFFFFFFFD

def maxBsize : Nat := 4096

def bsizeDefault : Nat := 512

def offSecType (bsize : Nat) : Nat := bsize - 4

def offExtension (bsize : Nat) : Nat := bsize - 8

def offNextHash (bsize : Nat) : Nat := bsize - 16

def offName (bsize : Nat) : Nat := bsize - 80

def offByteSize (bsize : Nat) : Nat := bsize - 188

def offLnfsNac (bsize : Nat) : Nat := bsize - 184

def htOffset : Nat := 0x18

def htEntries (bsize : Nat) : Nat := (bsize - htOffset - 200) / 4

def dbHighOff (bsize : Nat) : Nat := bsize - 204

def dbMax (bsize : Nat) : Nat := (bsize - 228) / 4

/-- `g_ffs`, but for the disk. -/
structure Volume where
  partLoc : Nat
  partSize : Nat
  bsize : Nat
  dostype : Nat
  isFfs : Bool
  isIntl : Bool
  isLnfs : Bool
  rootbuf : Buf
  rootBlock : Nat

def readBlockSz (d : Disk) (partLoc blockNum bsize : Nat) (buf : Buf) : Io (Retcode × Buf) :=
  filesysReadBytes d (u64 (partLoc + blockNum * bsize)) bsize buf

def Volume.readBlock (d : Disk) (v : Volume) (blockNum : Nat) (buf : Buf) : Io (Retcode × Buf) :=
  readBlockSz d v.partLoc blockNum v.bsize buf

def checksumOk (buf : Buf) (bsize : Nat) : Bool := Rdb.checksum buf (bsize / 4) == 0

def foldCh (intl : Bool) (c : UInt8) : UInt8 :=
  if 0x61 ≤ c ∧ c ≤ 0x7A then c - 0x20
  else if intl ∧ 0xE0 ≤ c ∧ c ≤ 0xFE ∧ c ≠ 0xF7 then c - 0x20
  else c

def hashStep (intl : Bool) (h : Nat) (c : UInt8) : Nat :=
  (h * 13 + (foldCh intl c).toNat) % 2 ^ 11

def nameHash (intl : Bool) (bsize : Nat) (name : List UInt8) : Nat :=
  name.foldl (hashStep intl) name.length % htEntries bsize

theorem nameHash_lt {intl : Bool} {bsize : Nat} (hle : 512 ≤ bsize) (name : List UInt8) :
    nameHash intl bsize name < htEntries bsize := by
  apply Nat.mod_lt
  rw [htEntries, htOffset]
  omega

theorem slot_le {bsize : Nat} (hle : 512 ≤ bsize) (hi : i < htEntries bsize) :
    htOffset + i * 4 + 4 ≤ bsize := by
  rw [htEntries] at hi
  rw [htOffset] at hi ⊢
  omega

def nameEq (intl : Bool) (a b : List UInt8) : Bool :=
  a.length == b.length && a.map (foldCh intl) == b.map (foldCh intl)

/-- The bytes of the name of a header block. -/
def extractName (bsize : Nat) (isLnfs : Bool) (block : Buf) : List UInt8 :=
  let p := if isLnfs then offLnfsNac bsize else offName bsize
  bytes block (p + 1) (block.nat p)

/-- What is checked of a root block. -/
def IsRoot (bsize : Nat) (buf : Buf) : Prop :=
  be32 buf 0 = tHeader ∧ be32 buf (offSecType bsize) = stRoot ∧ checksumOk buf bsize = true

instance (bsize : Nat) (buf : Buf) : Decidable (IsRoot bsize buf) :=
  inferInstanceAs (Decidable (_ ∧ _))

/-- The fields that both ways of opening a volume set. -/
def volume (partLoc partSize bsize dostype rootBlock : Nat) (buf : Buf) : Volume where
  partLoc := partLoc
  partSize := partSize
  bsize := bsize
  dostype := dostype
  isFfs := dostype.testBit 0
  isIntl := dostype.testBit 1 || dostype.testBit 2 || dostype == 6 || dostype == 7
  isLnfs := dostype == 6 || dostype == 7
  rootbuf := buf
  rootBlock := rootBlock

/-- The volume, unless `open_volume` returns an error, and what is in `buf` afterwards. -/
def openVolume (d : Disk) (partLoc partSize bsize : Nat) (buf : Buf) (dostype : Nat) :
    Io (Option Volume × Buf) := do
  let (ret, buf) ← readBlockSz d partLoc (partSize / bsize / 2) bsize buf
  pure (if ret = .noError ∧ IsRoot bsize buf then
      some (volume partLoc partSize bsize (dostype % 2 ^ 8) (partSize / bsize / 2) buf)
    else none, buf)

/-- The loop over a hash chain, from the header block `chain` on, and what is in `scratch`
afterwards. The block number is 0 if the name has not been found. -/
def chainRound (d : Disk) (v : Volume) (name : List UInt8) (s : Nat × Buf) :
    Io ((Nat × Buf) ⊕ (Nat × Buf)) :=
  if s.1 = 0 then pure (.inr (0, s.2))
  else do
    let (ret, scratch) ← v.readBlock d s.1 s.2
    pure (if ret ≠ .noError ∨ be32 scratch 0 ≠ tHeader then .inr (0, scratch)
      else if nameEq v.isIntl (extractName v.bsize v.isLnfs scratch) name then .inr (s.1, scratch)
      else .inl (be32 scratch (offNextHash v.bsize), scratch))

def lookupInHash (d : Disk) (v : Volume) (htBlock : Buf) (name : List UInt8) (scratch : Buf) :
    Io (Nat × Buf) :=
  .loop (chainRound d v name)
    (be32 htBlock (htOffset + nameHash v.isIntl v.bsize name * 4), scratch)

/-- The variables of the loop over the components of a path. -/
structure PathPos where
  htBuf : Buf
  cur : List Char
  currentBlock : Nat
  scratch : Buf

/-- A round of the path loop, after the search for its component. -/
def PathPos.next (v : Volume) (rest : List Char) (block : Nat) (scratch : Buf) :
    PathPos ⊕ (Nat × Buf) :=
  if block = 0 then .inr (0, scratch)
  else if rest = [] then .inr (block, scratch)
  else if be32 scratch (offSecType v.bsize) ≠ stUserdir ∧
      be32 scratch (offSecType v.bsize) ≠ stRoot then .inr (0, scratch)
  else .inl ⟨scratch, rest.tail, block, scratch⟩

/-- The length of a component is the difference of two pointers, so the cast to `uInt` does not
change it. -/
def pathRound (d : Disk) (v : Volume) (s : PathPos) : Io (PathPos ⊕ (Nat × Buf)) :=
  if s.cur = [] then pure (.inr (s.currentBlock, s.scratch))
  else if component s.cur = [] then pure (.inl { s with cur := (fromSep s.cur).tail })
  else if 107 < (component s.cur).length then pure (.inr (0, s.scratch))
  else do
    let (block, scratch) ← lookupInHash d v s.htBuf (component s.cur) s.scratch
    pure (PathPos.next v (fromSep s.cur) block scratch)

/-- The header block of a path, or 0, and what is in `scratch` afterwards. -/
def walkPath (d : Disk) (v : Volume) (path : List Char) (scratch : Buf) : Io (Nat × Buf) :=
  let path := path.dropWhile isSep
  if path = [] then pure (v.rootBlock, scratch.copy 0 v.rootbuf 0 v.bsize)
  else .loop (pathRound d v) ⟨v.rootbuf, path, v.rootBlock, scratch⟩

/-- The payload of a data block, and its length, unless it is no data block. -/
def payload (v : Volume) (dblk : Buf) : Option (Buf × Nat) :=
  if v.isFfs then some (dblk, v.bsize)
  else if be32 dblk 0 ≠ tData then none
  else some (fun i => dblk (0x18 + i), min (be32 dblk 0x0C) (v.bsize - 0x18))

/-- What the loop over the pointers of a table ends with: an error, the jump to `done`, or the way
to the next table. -/
inductive TableEnd where
  | error (ret : Retcode)
  | done
  | more

/-- A round of the loop over the pointers of a table, after the read of a data block. -/
def tableNext (v : Volume) (toRead i : Nat) (c : Copied) (ret : Retcode) (dblk : Buf) :
    (Nat × Copied) ⊕ (TableEnd × Copied) :=
  if ret ≠ .noError then .inr (.error ret, c)
  else
    match payload v dblk with
    | none => .inr (.error .eReadError, c)
    | some (data, len) => .inl (i + 1, c.append toRead len data)

/-- A round of the loop over the pointers of a table. `stack` is the array `dblk` before the
read. -/
def tableRound (d : Disk) (stack : Buf) (v : Volume) (toRead : Nat) (hdr : Buf) (s : Nat × Copied) :
    Io ((Nat × Copied) ⊕ (TableEnd × Copied)) :=
  if s.1 < dbMax v.bsize ∧ s.2.written < toRead then
    if be32 hdr (dbHighOff v.bsize - s.1 * 4) = 0 then pure (.inr (.done, s.2))
    else do
      let (ret, dblk) ← v.readBlock d (be32 hdr (dbHighOff v.bsize - s.1 * 4)) stack
      pure (tableNext v toRead s.1 s.2 ret dblk)
  else pure (.inr (.more, s.2))

/-- The variables of the loop over the tables: the current one, what has been read, and
`scratch`. -/
structure Tables where
  hdr : Buf
  copied : Copied
  scratch : Buf

/-- A round of the loop over the tables, after the loop over the pointers. -/
def tablesNext (d : Disk) (v : Volume) (toRead : Nat) (s : Tables) (c : Copied) :
    TableEnd → Io (Tables ⊕ (Retcode × Copied))
  | .error ret => pure (.inr (ret, c))
  | .done => pure (.inr (.noError, c))
  | .more =>
    if be32 s.hdr (offExtension v.bsize) = 0 ∨ toRead ≤ c.written then pure (.inr (.noError, c))
    else do
      let (ret, scratch) ← v.readBlock d (be32 s.hdr (offExtension v.bsize)) s.scratch
      pure (if ret ≠ .noError then .inr (ret, c)
        else if be32 scratch 0 ≠ tList then .inr (.eReadError, c)
        else .inl ⟨scratch, c, scratch⟩)

def tablesRound (d : Disk) (stack : Buf) (v : Volume) (toRead : Nat) (s : Tables) :
    Io (Tables ⊕ (Retcode × Copied)) :=
  if s.copied.written < toRead then do
    let (e, c) ← .loop (tableRound d stack v toRead s.hdr) (0, s.copied)
    tablesNext d v toRead s c e
  else pure (.inr (.noError, s.copied))

/-- The contents of the file with the header `hdr`, read into `out`. `*out_len` is what has been
written if there is no error. -/
def readFileContents (d : Disk) (stack : Buf) (v : Volume) (hdr out : Buf) (maxBytes : Nat)
    (scratch : Buf) : Io (Retcode × Copied) :=
  .loop (tablesRound d stack v (min (be32 hdr (offByteSize v.bsize)) maxBytes))
    ⟨hdr, ⟨0, out⟩, scratch⟩

/-- A line of a listing: the type, the size and the name of an entry. -/
structure Line where
  secType : Nat
  size : Nat
  name : List UInt8
  deriving DecidableEq

/-- The line for a header block. Only that of a file shows its size. -/
def line (v : Volume) (block : Buf) : Line where
  secType := be32 block (offSecType v.bsize)
  size := if be32 block (offSecType v.bsize) = stFile then be32 block (offByteSize v.bsize) else 0
  name := extractName v.bsize v.isLnfs block

/-- The variables of the loops of `list_directory`. -/
structure Listing where
  lines : List Line
  scratch : Buf

/-- A round of the loop over a hash chain. The chain ends, or a read fails. -/
def listRound (d : Disk) (v : Volume) (s : Nat × Listing) :
    Io ((Nat × Listing) ⊕ (Bool × Listing)) :=
  if s.1 = 0 then pure (.inr (true, s.2))
  else do
    let (ret, scratch) ← v.readBlock d s.1 s.2.scratch
    pure (if ret ≠ .noError then .inr (false, ⟨s.2.lines, scratch⟩)
      else .inl (be32 scratch (offNextHash v.bsize), ⟨s.2.lines ++ [line v scratch], scratch⟩))

/-- A round of the loop over the hash table. -/
def bucketRound (d : Disk) (v : Volume) (dirBlock : Buf) (s : Nat × Listing) :
    Io ((Nat × Listing) ⊕ Listing) :=
  if s.1 < htEntries v.bsize then do
    let (ok, l) ← .loop (listRound d v) (be32 dirBlock (htOffset + s.1 * 4), s.2)
    pure (if ok then .inl (s.1 + 1, l) else .inr l)
  else pure (.inr s.2)

def listDirectory (d : Disk) (v : Volume) (dirBlock scratch : Buf) : Io Listing :=
  .loop (bucketRound d v dirBlock) (0, ⟨[], scratch⟩)

/-- `FS_LIST`, with the type of the block of the path. -/
def list (d : Disk) (v : Volume) (q : Call) (buf scratch : Buf) : Io Reply :=
  if be32 scratch (offSecType v.bsize) = stRoot ∨
      be32 scratch (offSecType v.bsize) = stUserdir then do
    let _ ← listDirectory d v scratch buf
    pure (q.reply .rEnd)
  else pure (q.reply .rEnd)

/-- `FS_LOAD`, with the header block of the path. -/
def load (d : Disk) (stack : Buf) (v : Volume) (q : Call) (buf scratch : Buf) : Io Reply :=
  if be32 scratch (offSecType v.bsize) ≠ stFile then pure (q.reply .eNoFile)
  else do
    let (ret, c) ← readFileContents d stack v scratch q.retbuf 0xFFFFFFFF buf
    pure (loaded q ret c)

/-- The `switch` of `amiga_ffs`, with `g_ffs_iobuf` in `buf`. -/
def act (d : Disk) (stack : Buf) (v : Volume) (q : Call) (buf : Buf) : Action → Io Reply
  | .probe => pure { q.reply .rEnd with probed := q.probed ++ ",amiga-ffs".toList, val := q.loc }
  | .list => do
    let (block, scratch) ← walkPath d v q.path stack
    if block = 0 then pure (q.reply .eNoFile) else list d v q buf scratch
  | .load => do
    let (block, scratch) ← walkPath d v q.path stack
    if block = 0 then pure (q.reply .eNoFile) else load d stack v q buf scratch

def probeMids : List Nat := [880, 1760, 4096, 16384, 65536, 262144, 1048576, 2097152]

/-- The probe table. The limit is the number of blocks of the partition, or 0 if it is not
known. -/
def probeTable (d : Disk) (loc bsize limit : Nat) : List Nat → Buf → Io (Option Nat × Buf)
  | [], buf => pure (none, buf)
  | mid :: mids, buf =>
    if limit ≠ 0 ∧ limit ≤ mid then pure (none, buf)
    else do
      let (ret, buf) ← readBlockSz d loc mid bsize buf
      if ret ≠ .noError then pure (none, buf)
      else if IsRoot bsize buf then pure (some mid, buf)
      else probeTable d loc bsize limit mids buf

/-- `root_calc`, for a partition of `n` blocks. -/
def rootCalc (n : Nat) : Nat := u32 (2 + u32 (u64 (n + 2 ^ 64 - 1))) / 2

/-- The root block by the geometry of the RDB. -/
def probeCalc (d : Disk) (loc bsize n : Nat) (buf : Buf) : Io (Option Nat × Buf) := do
  let (ret, buf) ← readBlockSz d loc (rootCalc n) bsize buf
  pure (if ret = .noError ∧ IsRoot bsize buf then some (rootCalc n) else none, buf)

/-- `picked_root`, unless there is none. -/
def pickRoot (d : Disk) (loc bsize : Nat) (hint : Hint) (buf : Buf) : Io (Option Nat × Buf) :=
  if hint.byteSize ≠ 0 ∧ hint.blockSize ≠ 0 then do
    let (root, buf) ← probeCalc d loc bsize (hint.byteSize / hint.blockSize) buf
    match root with
    | some root => pure (some root, buf)
    | none => probeTable d loc bsize (hint.byteSize / hint.blockSize) probeMids buf
  else probeTable d loc bsize 0 probeMids buf

def partSizeGuess (bsize : Nat) (hint : Hint) (pickedRoot : Nat) : Nat :=
  if hint.byteSize ≠ 0 ∧ hint.byteSize ≤ 0xFFFFFFFF then hint.byteSize
  else u32 (pickedRoot * 2 * bsize)

/-- The volume with the root block that has been picked, and `g_ffs_iobuf`. If `open_volume` fails,
what it has left in `buf` becomes the root block. -/
def openPicked (d : Disk) (loc bsize : Nat) (hint : Hint) (dt pickedRoot : Nat) (buf : Buf) :
    Io (Volume × Buf) := do
  let (v, buf) ← openVolume d loc (partSizeGuess bsize hint pickedRoot) bsize buf dt
  pure (v.getD (volume loc (partSizeGuess bsize hint pickedRoot) bsize dt pickedRoot buf), buf)

/-- The FS block size: that of the hint, or 512. -/
def fsBsize (hint : Hint) : Nat :=
  if bsizeDefault ≤ hint.blockSize ∧ hint.blockSize ≤ maxBsize then hint.blockSize
  else bsizeDefault

/-- The DosType of the boot block, if the file system is one of the reader's. -/
def bootDosType (ret : Retcode) (bootbuf : Buf) : Option Nat :=
  if ret = .noError ∧ be32 bootbuf 0 / 2 ^ 8 = 0x444F53 ∧ be32 bootbuf 0 % 2 ^ 8 ≤ 7 then
    some (be32 bootbuf 0 % 2 ^ 8)
  else none

/-- `amiga_ffs` up to its `switch`: the volume and `g_ffs_iobuf`, unless there is no file system.
`stack` is what the arrays on the stack hold before their first use, and `iobuf` what
`g_ffs_iobuf` does. -/
def mount (d : Disk) (stack iobuf : Buf) (loc : Nat) (hint : Hint) :
    Io (Option (Volume × Buf)) := do
  let (ret, bootbuf) ← readBlockSz d loc 0 (fsBsize hint) stack
  match bootDosType ret bootbuf with
  | none => pure none
  | some dt => do
    let (root, buf) ← pickRoot d loc (fsBsize hint) hint iobuf
    match root with
    | none => pure none
    | some root => do
      let x ← openPicked d loc (fsBsize hint) hint dt root buf
      pure (some x)

/-- `amiga_ffs` with the result of the open step. -/
def afterMount (d : Disk) (stack : Buf) (q : Call) : Option (Volume × Buf) → Io Reply
  | none => pure (q.reply .eNoFilesys)
  | some (v, buf) => act d stack v q buf q.what

def amigaFfs (d : Disk) (stack iobuf : Buf) (q : Call) : Io Reply :=
  if q.size < bsizeDefault then pure (q.reply .eBlocksize)
  else do
    let hint ← getHint
    let x ← mount d stack iobuf q.loc hint
    afterMount d stack q x

end Ffs

end Pegasos2.Fs
