import Pegasos2.AmigaVolume

namespace Pegasos2.Fs
open Program
set_option autoImplicit true

namespace Pfs

def dtPfs1 : Nat := 0x50465301

def dtPfs2 : Nat := 0x50465302

def dtAfs1 : Nat := 0x41465301

def idDb : Nat := 0x4442

def idAb : Nat := 0x4142

def idIb : Nat := 0x4942

def smallNumIndexblocks : Nat := 99

def anodeRootdir : Nat := 5

def stUserdir : Nat := 2

def stSoftlink : Nat := 3

def stLinkdir : Nat := 4

def stLinkfileByte : Nat := 0xFC

/-- `g_pfs`. -/
structure Volume where
  partLoc : Nat
  dostype : Nat
  reservedBlksize : Nat
  disksize : Nat
  firstreserved : Nat
  lastreserved : Nat
  anodesPerBlock : Nat
  entriesPerIb : Nat
  indexblocks : Nat → Nat

/-- What is checked of the root block. -/
def RootOk (dostype : Nat) (buf : Buf) : Prop :=
  be32 buf 0 = dostype ∧ (be32 buf 4).testBit 7 = false ∧ be16 buf 64 = bsize ∧ be32 buf 84 ≠ 0 ∧
    be32 buf 56 ≠ 0 ∧ be32 buf 56 ≤ be32 buf 52

instance (dostype : Nat) (buf : Buf) : Decidable (RootOk dostype buf) :=
  inferInstanceAs (Decidable (_ ∧ _))

def volume (partLoc dostype : Nat) (buf : Buf) : Volume where
  partLoc := partLoc
  dostype := dostype % 2 ^ 8
  reservedBlksize := be16 buf 64
  disksize := be32 buf 84
  firstreserved := be32 buf 56
  lastreserved := be32 buf 52
  anodesPerBlock := (be16 buf 64 - 16) / 12
  entriesPerIb := (be16 buf 64 - 12) / 4
  indexblocks i := be32 buf (116 + i * 4)

/-- All errors are `E_NO_FILESYS` to the caller. -/
def pfsOpenVolume (d : Disk) (partLoc dostype : Nat) (buf : Buf) : Io (Option Volume) := do
  let (ret, buf) ← readBlock d partLoc 2 buf
  pure (if ret = .noError ∧ RootOk dostype buf then some (volume partLoc dostype buf) else none)

def anode (b : Buf) (a : Nat) : Extent where
  first := be32 b (a + 4)
  blocks := be32 b a
  next := be32 b (a + 8)

/-- `pfs_get_anode` with the anode block. -/
def anodeIn (abOff : Nat) (ret : Retcode) (b : Buf) : Except Retcode Extent :=
  if ret ≠ .noError then .error ret
  else if be16 b 0 ≠ idAb then .error .eReadError
  else .ok (anode b (16 + abOff * 12))

/-- `pfs_get_anode` with the index block. -/
def indexed (d : Disk) (stack : Buf) (v : Volume) (ibSub abOff : Nat) (ret : Retcode) (b : Buf) :
    Io (Except Retcode Extent) :=
  if ret ≠ .noError then pure (.error ret)
  else if be16 b 0 ≠ idIb then pure (.error .eReadError)
  else if be32 b (12 + ibSub * 4) = 0 then pure (.error .eReadError)
  else do
    let (ret, b) ← readBlock d v.partLoc (be32 b (12 + ibSub * 4)) stack
    pure (anodeIn abOff ret b)

/-- The blocks of an anode, with the number of the next anode. -/
def pfsGetAnode (d : Disk) (stack : Buf) (v : Volume) (anodenr : Nat) :
    Io (Except Retcode Extent) :=
  if v.anodesPerBlock = 0 ∨ v.entriesPerIb = 0 then pure (.error .eReadError)
  else
    let abIdx := anodenr / v.anodesPerBlock
    if smallNumIndexblocks ≤ abIdx / v.entriesPerIb then pure (.error .eReadError)
    else if v.indexblocks (abIdx / v.entriesPerIb) = 0 then pure (.error .eReadError)
    else do
      let (ret, b) ← readBlock d v.partLoc (v.indexblocks (abIdx / v.entriesPerIb)) stack
      indexed d stack v (abIdx % v.entriesPerIb) (anodenr % v.anodesPerBlock) ret b

structure Direntry where
  type : Nat
  anode : Nat
  size : Nat
  name : List UInt8
  deriving DecidableEq

def direntry (b : Buf) (off : Nat) : Direntry where
  type := b.nat (off + 1)
  anode := be32 b (off + 2)
  size := be32 b (off + 6)
  name := bytes b (off + 18) (b.nat (off + 17))

/-- There is an entry at `off`, inside the block. -/
def EntryOk (b : Buf) (off : Nat) : Prop :=
  off + 18 < bsize ∧ b.nat off ≠ 0 ∧ 18 ≤ b.nat off ∧ off + b.nat off ≤ bsize

instance (b : Buf) (off : Nat) : Decidable (EntryOk b off) := inferInstanceAs (Decidable (_ ∧ _))

/-- The name of the entry at `off` ends inside the block. -/
def NameOk (b : Buf) (off : Nat) : Prop := off + 18 + b.nat (off + 17) ≤ bsize

instance (b : Buf) (off : Nat) : Decidable (NameOk b off) := inferInstanceAs (Decidable (_ ≤ _))

def scanRound (name : List UInt8) (b : Buf) (off : Nat) : Nat ⊕ Except Retcode Direntry :=
  if EntryOk b off then
    if b.nat (off + 17) ≠ 0 ∧ NameOk b off ∧ nameEq foldCh (direntry b off).name name then
      .inr (.ok (direntry b off))
    else .inl (off + b.nat off)
  else .inr (.error .eNoFile)

def pfsScanDirblock (dblk : Buf) (name : List UInt8) : Io (Except Retcode Direntry) :=
  if be16 dblk 0 ≠ idDb then pure (.error .eReadError)
  else .loop (fun off => pure (scanRound name dblk off)) 20

/-- A round of the loop over the blocks of a directory anode, after the scan of block `i`. -/
def scanned (i : Nat) : Except Retcode Direntry → Nat ⊕ Option (Except Retcode Direntry)
  | .ok e => .inr (some (.ok e))
  | .error ret => if ret ≠ .eNoFile then .inr (some (.error ret)) else .inl (i + 1)

def lookupBlock (name : List UInt8) (i : Nat) (ret : Retcode) (dblk : Buf) :
    Io (Nat ⊕ Option (Except Retcode Direntry)) :=
  if ret ≠ .noError then pure (.inr (some (.error ret)))
  else do
    let r ← pfsScanDirblock dblk name
    pure (scanned i r)

def lookupBlocks (d : Disk) (stack : Buf) (v : Volume) (name : List UInt8) (x : Extent) :
    Io (Option (Except Retcode Direntry)) :=
  .loop (fun i =>
    if i < x.blocks then do
      let (ret, dblk) ← readBlock d v.partLoc (u32 (x.first + i)) stack
      lookupBlock name i ret dblk
    else pure (.inr none)) 0

/-- A round of the anode loop, after the loop over the blocks of the anode. -/
def lookedUp (guard next : Nat) :
    Option (Except Retcode Direntry) → (Nat × Nat) ⊕ Except Retcode Direntry
  | some r => .inr r
  | none => .inl (next, guard + 1)

/-- A round of the anode loop of `pfs_dir_lookup`, with its anode. -/
def lookupAnode (d : Disk) (stack : Buf) (v : Volume) (name : List UInt8) (guard : Nat) :
    Except Retcode Extent → Io ((Nat × Nat) ⊕ Except Retcode Direntry)
  | .error ret => pure (.inr (.error ret))
  | .ok x =>
    if x.first = 0 ∨ x.blocks = 0 then pure (.inr (.error .eNoFile))
    else do
      let r ← lookupBlocks d stack v name x
      pure (lookedUp guard x.next r)

def lookupRound (d : Disk) (stack : Buf) (v : Volume) (name : List UInt8) (s : Nat × Nat) :
    Io ((Nat × Nat) ⊕ Except Retcode Direntry) :=
  if s.1 ≠ 0 ∧ s.2 < 4096 then do
    let x ← pfsGetAnode d stack v s.1
    lookupAnode d stack v name s.2 x
  else pure (.inr (.error .eNoFile))

def pfsDirLookup (d : Disk) (stack : Buf) (v : Volume) (dirAnode : Nat) (name : List UInt8) :
    Io (Except Retcode Direntry) :=
  .loop (lookupRound d stack v name) (dirAnode, 0)

/-- A round of the loop over the entries of a block that is listed, with the entries so far. -/
def listRound (b : Buf) (s : Nat × List Direntry) : (Nat × List Direntry) ⊕ List Direntry :=
  if EntryOk b s.1 ∧ NameOk b s.1 then .inl (s.1 + b.nat s.1, s.2 ++ [direntry b s.1])
  else .inr s.2

def listEntries (b : Buf) (passed : List Direntry) : Io (List Direntry) :=
  .loop (fun s => pure (listRound b s)) (20, passed)

def listBlock (i : Nat) (passed : List Direntry) (ret : Retcode) (dblk : Buf) :
    Io ((Nat × List Direntry) ⊕ (Bool × List Direntry)) :=
  if ret ≠ .noError then pure (.inr (false, passed))
  else if be16 dblk 0 ≠ idDb then pure (.inl (i + 1, passed))
  else do
    let passed ← listEntries dblk passed
    pure (.inl (i + 1, passed))

/-- The entries in the blocks of an anode, and whether all blocks were read. -/
def listBlocks (d : Disk) (stack : Buf) (v : Volume) (x : Extent) (passed : List Direntry) :
    Io (Bool × List Direntry) :=
  .loop (fun s =>
    if s.1 < x.blocks then do
      let (ret, dblk) ← readBlock d v.partLoc (u32 (x.first + s.1)) stack
      listBlock s.1 s.2 ret dblk
    else pure (.inr (true, s.2))) (0, passed)

/-- The variables of the anode loop of `pfs_list_dir`. -/
structure Listing where
  anr : Nat
  guard : Nat
  passed : List Direntry

def listAnode (d : Disk) (stack : Buf) (v : Volume) (s : Listing) :
    Except Retcode Extent → Io (Listing ⊕ List Direntry)
  | .error _ => pure (.inr s.passed)
  | .ok x =>
    if x.first = 0 ∨ x.blocks = 0 then pure (.inr s.passed)
    else do
      let (all, passed) ← listBlocks d stack v x s.passed
      pure (if all then .inl ⟨x.next, s.guard + 1, passed⟩ else .inr passed)

def listingRound (d : Disk) (stack : Buf) (v : Volume) (s : Listing) :
    Io (Listing ⊕ List Direntry) :=
  if s.anr ≠ 0 ∧ s.guard < 4096 then do
    let x ← pfsGetAnode d stack v s.anr
    listAnode d stack v s x
  else pure (.inr s.passed)

/-- The entries that are listed. -/
def pfsListDir (d : Disk) (stack : Buf) (v : Volume) (dirAnode : Nat) : Io (List Direntry) :=
  .loop (listingRound d stack v) ⟨dirAnode, 0, []⟩

/-- The result of a path walk: `*out_type`, `*out_anode` and `*out_size`. -/
structure Target where
  type : Nat
  anode : Nat
  size : Nat

def walker (d : Disk) (stack : Buf) (v : Volume) : Walker Nat Direntry Target where
  lookup := pfsDirLookup d stack v
  last e := ⟨e.type, e.anode, e.size⟩
  enter e := if e.type = stUserdir then some e.anode else none
  here dir := ⟨stUserdir, dir, 0⟩

def pfsWalkPath (d : Disk) (stack : Buf) (v : Volume) (path : List Char) :
    Io (Except Retcode Target) :=
  (walker d stack v).walkPath anodeRootdir path

def pfsReadFile (d : Disk) (stack : Buf) (v : Volume) (fileAnode byteSize : Nat) (out : Buf) :
    Io (Retcode × Copied) :=
  readFile d stack v.partLoc (pfsGetAnode d stack v) fileAnode byteSize out

/-- `FS_LIST` of what the path leads to. What it prints is not part of the reply. -/
def list (d : Disk) (stack : Buf) (v : Volume) (q : Call) : Except Retcode Target → Io Reply
  | .error _ => pure (q.reply .eNoFile)
  | .ok t =>
    if t.type = stUserdir then do
      let _ ← pfsListDir d stack v t.anode
      pure (q.reply .rEnd)
    else pure (q.reply .rEnd)

/-- `FS_LOAD` of what the path leads to. -/
def load (d : Disk) (stack : Buf) (v : Volume) (q : Call) : Except Retcode Target → Io Reply
  | .error _ => pure (q.reply .eNoFile)
  | .ok t =>
    if t.type = stUserdir ∨ t.type = stSoftlink ∨ t.type = stLinkdir ∨ t.type = stLinkfileByte then
      pure (q.reply .eNoFile)
    else do
      let (ret, c) ← pfsReadFile d stack v t.anode t.size q.retbuf
      pure (loaded q ret c)

def act (d : Disk) (stack : Buf) (v : Volume) (q : Call) : Action → Io Reply
  | .probe => pure { q.reply .rEnd with probed := q.probed ++ ",amiga-pfs3".toList, val := q.loc }
  | .list => do
    let t ← pfsWalkPath d stack v q.path
    list d stack v q t
  | .load => do
    let t ← pfsWalkPath d stack v q.path
    load d stack v q t

def afterOpen (d : Disk) (stack : Buf) (q : Call) : Option Volume → Io Reply
  | none => pure (q.reply .eNoFilesys)
  | some v => act d stack v q q.what

/-- `amiga_pfs3` after the read of the boot block. -/
def afterBoot (d : Disk) (stack : Buf) (q : Call) (ret : Retcode) (boot : Buf) : Io Reply :=
  if ret ≠ .noError then pure (q.reply .eNoFilesys)
  else if be32 boot 0 ≠ dtPfs1 ∧ be32 boot 0 ≠ dtPfs2 ∧ be32 boot 0 ≠ dtAfs1 then
    pure (q.reply .eNoFilesys)
  else do
    let v ← pfsOpenVolume d q.loc (be32 boot 0) q.buf
    afterOpen d stack q v

/-- `stack` is what the arrays on the stack hold before their first use. -/
def amigaPfs3 (d : Disk) (stack : Buf) (q : Call) : Io Reply :=
  if q.size < bsize then pure (q.reply .eBlocksize)
  else do
    let (ret, boot) ← readBlock d q.loc 0 stack
    afterBoot d stack q ret boot

theorem pfsGetAnode_total (d : Disk) (stack : Buf) (v : Volume) (anodenr : Nat) :
    Prog.Total (pfsGetAnode d stack v anodenr) := by
  rw [pfsGetAnode]
  dsimp only
  split_ifs
  · exact .pure _
  · exact .pure _
  · exact .pure _
  · apply (readBlock_total d v.partLoc _ stack).bind
    rintro ⟨ret, b⟩
    show Prog.Total (indexed d stack v _ _ ret b)
    rw [indexed]
    split_ifs
    · exact .pure _
    · exact .pure _
    · exact .pure _
    · exact (readBlock_total d v.partLoc _ stack).bind fun _ => .pure _

theorem EntryOk.sub_lt (h : EntryOk b off) : bsize - (off + b.nat off) < bsize - off := by
  obtain ⟨hroom, -, hsize, -⟩ := h
  apply Nat.sub_lt_sub_left <;> omega

theorem pfsScanDirblock_total (dblk : Buf) (name : List UInt8) :
    Prog.Total (pfsScanDirblock dblk name) := by
  rw [pfsScanDirblock]
  split_ifs
  · exact .pure _
  · apply Prog.Total.loop (fun off => bsize - off)
    intro off
    apply Prog.Yields.pure
    rw [scanRound]
    split_ifs with hentry
    · exact trivial
    · exact ⟨trivial, hentry.sub_lt⟩
    · exact trivial

theorem listEntries_total (b : Buf) (passed : List Direntry) :
    Prog.Total (listEntries b passed) := by
  apply Prog.Total.loop (fun s => bsize - s.1)
  intro s
  apply Prog.Yields.pure
  rw [listRound]
  split_ifs with hentry
  · exact ⟨trivial, hentry.1.sub_lt⟩
  · exact trivial

theorem lookupBlocks_total (d : Disk) (stack : Buf) (v : Volume) (name : List UInt8) (x : Extent) :
    Prog.Total (lookupBlocks d stack v name x) := by
  apply Prog.Total.loop (fun i => x.blocks - i)
  intro i
  split_ifs with hi
  · apply Prog.Yields.bind (readBlock_total d v.partLoc _ stack)
    rintro ⟨ret, dblk⟩ _
    show Prog.Yields (lookupBlock name i ret dblk) _
    rw [lookupBlock]
    split_ifs
    · exact Prog.Yields.pure trivial
    · apply Prog.Yields.bind (pfsScanDirblock_total dblk name)
      intro r _
      apply Prog.Yields.pure
      cases r with
      | ok e => exact trivial
      | error ret =>
        rw [scanned]
        split_ifs
        · exact trivial
        · exact ⟨trivial, Nat.sub_succ_lt_self _ _ hi⟩
  · exact Prog.Yields.pure trivial

theorem listBlocks_total (d : Disk) (stack : Buf) (v : Volume) (x : Extent)
    (passed : List Direntry) : Prog.Total (listBlocks d stack v x passed) := by
  apply Prog.Total.loop (fun s => x.blocks - s.1)
  intro s
  split_ifs with hi
  · apply Prog.Yields.bind (readBlock_total d v.partLoc _ stack)
    rintro ⟨ret, dblk⟩ _
    show Prog.Yields (listBlock s.1 s.2 ret dblk) _
    rw [listBlock]
    split_ifs
    · exact Prog.Yields.pure trivial
    · exact Prog.Yields.pure ⟨trivial, Nat.sub_succ_lt_self _ _ hi⟩
    · apply Prog.Yields.bind (listEntries_total dblk s.2)
      intro passed' _
      exact Prog.Yields.pure ⟨trivial, Nat.sub_succ_lt_self _ _ hi⟩
  · exact Prog.Yields.pure trivial

theorem pfsDirLookup_total (d : Disk) (stack : Buf) (v : Volume) (dirAnode : Nat)
    (name : List UInt8) : Prog.Total (pfsDirLookup d stack v dirAnode name) := by
  apply Prog.Total.loop (fun s => 4096 - s.2)
  intro s
  rw [lookupRound]
  split_ifs with h
  · apply Prog.Yields.bind (pfsGetAnode_total d stack v s.1)
    intro x _
    cases x with
    | error ret => exact Prog.Yields.pure trivial
    | ok x =>
      rw [lookupAnode]
      split_ifs
      · exact Prog.Yields.pure trivial
      · apply Prog.Yields.bind (lookupBlocks_total d stack v name x)
        intro r _
        apply Prog.Yields.pure
        cases r with
        | some r => exact trivial
        | none => exact ⟨trivial, Nat.sub_succ_lt_self _ _ h.2⟩
  · exact Prog.Yields.pure trivial

theorem pfsListDir_total (d : Disk) (stack : Buf) (v : Volume) (dirAnode : Nat) :
    Prog.Total (pfsListDir d stack v dirAnode) := by
  apply Prog.Total.loop (fun s => 4096 - s.guard)
  intro s
  rw [listingRound]
  split_ifs with h
  · apply Prog.Yields.bind (pfsGetAnode_total d stack v s.anr)
    intro x _
    cases x with
    | error ret => exact Prog.Yields.pure trivial
    | ok x =>
      rw [listAnode]
      split_ifs
      · exact Prog.Yields.pure trivial
      · apply Prog.Yields.bind (listBlocks_total d stack v x s.passed)
        rintro ⟨all, passed⟩ _
        apply Prog.Yields.pure
        split_ifs
        · exact ⟨trivial, Nat.sub_succ_lt_self _ _ h.2⟩
        · exact trivial
  · exact Prog.Yields.pure trivial

theorem pfsWalkPath_total (d : Disk) (stack : Buf) (v : Volume) (path : List Char) :
    Prog.Total (pfsWalkPath d stack v path) :=
  (walker d stack v).walkPath_total (pfsDirLookup_total d stack v) _ _

theorem act_total (d : Disk) (stack : Buf) (v : Volume) (q : Call) (what : Action) :
    Prog.Total (act d stack v q what) := by
  cases what with
  | probe => exact .pure _
  | list =>
    apply (pfsWalkPath_total d stack v q.path).bind
    intro t
    cases t with
    | error ret => exact .pure _
    | ok t =>
      rw [list]
      split_ifs
      · exact (pfsListDir_total d stack v t.anode).bind fun _ => .pure _
      · exact .pure _
  | load =>
    apply (pfsWalkPath_total d stack v q.path).bind
    intro t
    cases t with
    | error ret => exact .pure _
    | ok t =>
      rw [load]
      split_ifs
      · exact .pure _
      · exact (readFile_total d stack v.partLoc t.anode t.size q.retbuf
          (pfsGetAnode_total d stack v)).bind fun _ => .pure _

theorem amigaPfs3_total (d : Disk) (stack : Buf) (q : Call) :
    Prog.Total (amigaPfs3 d stack q) := by
  rw [amigaPfs3]
  split_ifs
  · exact .pure _
  · apply (readBlock_total d q.loc 0 stack).bind
    rintro ⟨ret, boot⟩
    show Prog.Total (afterBoot d stack q ret boot)
    rw [afterBoot]
    split_ifs
    · exact .pure _
    · exact .pure _
    · apply ((readBlock_total d q.loc 2 q.buf).bind fun _ => .pure _).bind
      intro v
      cases v with
      | none => exact .pure _
      | some v => exact act_total d stack v q q.what

end Pfs

end Pegasos2.Fs
