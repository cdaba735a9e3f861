import Pegasos2.AmigaVolume

namespace Pegasos2.Fs
open Program
set_option autoImplicit true

namespace Sfs

def blockidObjc : Nat := 0x4F424A43

def blockidBndc : Nat := 0x424E4443

def dostypeMagic24 : Nat := 0x53465300

/-- `g_sfs`. -/
structure Volume where
  partLoc : Nat
  dostype : Nat
  caseSens : Bool
  totalBlocks : Nat
  rootObjcBlock : Nat
  rootDirFirstOc : Nat
  volumeName : List UInt8
  extentBnRoot : Nat

/-- The sum of the longs of a block is zero or minus one. -/
def sfsChecksumOk (buf : Buf) : Bool :=
  Rdb.checksum buf 128 == 0 || Rdb.checksum buf 128 == 0xFFFFFFFF

def sfsNameEq (v : Volume) (a name : List UInt8) : Bool :=
  nameEq (if v.caseSens then id else foldCh) a name

/-- The first of the candidate blocks that is a root block. -/
def findRoot (d : Disk) (partLoc : Nat) : List Nat → Buf → Io (Option Buf)
  | [], _ => pure none
  | b :: bs, buf => do
    let (ret, buf) ← readBlock d partLoc b buf
    if ret = .noError ∧ sfsChecksumOk buf ∧ be32 buf 8 = b then pure (some buf)
    else findRoot d partLoc bs buf

/-- What is checked of a root block. -/
def RootOk (buf : Buf) : Prop :=
  be16 buf 12 ≠ 0 ∧ be16 buf 12 ≤ 99 ∧ be32 buf 52 = bsize ∧ be32 buf 104 ≠ 0 ∧
    be32 buf 104 < be32 buf 48

instance (buf : Buf) : Decidable (RootOk buf) := inferInstanceAs (Decidable (_ ∧ _))

def volume (partLoc dostype : Nat) (buf oc : Buf) : Volume where
  partLoc := partLoc
  dostype := dostype % 2 ^ 8
  caseSens := (buf.nat 20).testBit 7
  totalBlocks := be32 buf 48
  rootObjcBlock := be32 buf 104
  rootDirFirstOc := be32 oc (24 + 16)
  volumeName := bytes oc (24 + 25) (cstringLen oc (24 + 25) 107)
  extentBnRoot := be32 buf 108

/-- The object container of the root directory object. -/
def RootObjcOk (oc : Buf) : Prop := be32 oc 0 = blockidObjc ∧ be32 oc (24 + 4) ≠ 0

instance (oc : Buf) : Decidable (RootObjcOk oc) := inferInstanceAs (Decidable (_ ∧ _))

/-- `sfs_open_volume` with the root block, if there is one. -/
def openRoot (d : Disk) (stack : Buf) (partLoc dostype : Nat) : Option Buf → Io (Option Volume)
  | none => pure none
  | some buf =>
    if RootOk buf then do
      let (ret, oc) ← readBlock d partLoc (be32 buf 104) stack
      pure (if ret = .noError ∧ RootObjcOk oc then some (volume partLoc dostype buf oc) else none)
    else pure none

/-- `stack` is what the arrays on the stack hold before their first use. All errors are
`E_NO_FILESYS`. -/
def sfsOpenVolume (d : Disk) (stack : Buf) (partLoc dostype : Nat) (buf : Buf) :
    Io (Option Volume) := do
  let root ← findRoot d partLoc [0, 1] buf
  openRoot d stack partLoc dostype root

/-- The position behind the string at `p`, with `n` bytes up to the end. -/
def skipCstring (b : Buf) (p : Nat) : Nat → Nat
  | 0 => p
  | n + 1 => if b p = 0 then p + 1 else skipCstring b (p + 1) n

/-- The size of the name and the comment at `p`, with `n` bytes up to the end. -/
def stringsEnd (b : Buf) (p n : Nat) : Nat :=
  skipCstring b (skipCstring b p n) (p + n - skipCstring b p n)

def objectRecordSize (b : Buf) (obj avail : Nat) : Nat :=
  if avail < 25 then 0
  else
    let size := stringsEnd b (obj + 25) (avail - 25) - obj
    size + size % 2

structure Object where
  data : Nat
  size : Nat
  bits : Nat
  name : List UInt8
  deriving DecidableEq

def Object.isDir (o : Object) : Bool := o.bits.testBit 7

def Object.isLink (o : Object) : Bool := o.bits.testBit 6

def object (b : Buf) (off : Nat) : Object where
  data := be32 b (off + 12)
  size := be32 b (off + 16)
  bits := b.nat (off + 24)
  name := bytes b (off + 25) (cstringLen b (off + 25) (bsize - off - 25))

/-- A round of the loop over the objects of a container, with the objects that it has passed. It
ends at an object that `hit` holds of. -/
def objectRound (hit : Object → Bool) (b : Buf) (s : Nat × List Object) :
    (Nat × List Object) ⊕ (List Object × Option Object) :=
  if s.1 + 25 ≤ bsize then
    if be32 b (s.1 + 4) = 0 then .inr (s.2, none)
    else if objectRecordSize b s.1 (bsize - s.1) = 0 ∨
        bsize < s.1 + objectRecordSize b s.1 (bsize - s.1) then .inr (s.2, none)
    else if hit (object b s.1) then .inr (s.2, some (object b s.1))
    else .inl (s.1 + objectRecordSize b s.1 (bsize - s.1), s.2 ++ [object b s.1])
  else .inr (s.2, none)

def walkObjects (hit : Object → Bool) (b : Buf) (passed : List Object) :
    Io (List Object × Option Object) :=
  .loop (fun s => pure (objectRound hit b s)) (24, passed)

/-- The variables of the loop over the containers of a directory. -/
structure Dir where
  ocBlock : Nat
  guard : Nat
  passed : List Object

/-- The end of a directory walk: the objects that it has passed, and the one that it ends at or the
return code. -/
structure DirEnd where
  passed : List Object
  found : Except Retcode Object

/-- A round of the container loop, after the walk over the objects of its block. -/
def Dir.next (s : Dir) (b : Buf) : List Object × Option Object → Dir ⊕ DirEnd
  | (passed, some o) => .inr ⟨passed, .ok o⟩
  | (passed, none) => .inl ⟨be32 b 16, s.guard + 1, passed⟩

/-- A round of the container loop, with its block. `own` says whether the block must name itself. -/
def dirBlock (own : Bool) (hit : Object → Bool) (s : Dir) (ret : Retcode) (b : Buf) :
    Io (Dir ⊕ DirEnd) :=
  if ret ≠ .noError then pure (.inr ⟨s.passed, .error ret⟩)
  else if be32 b 0 ≠ blockidObjc then pure (.inr ⟨s.passed, .error .eNoFile⟩)
  else if own ∧ be32 b 8 ≠ s.ocBlock then pure (.inr ⟨s.passed, .error .eNoFile⟩)
  else do
    let x ← walkObjects hit b s.passed
    pure (s.next b x)

def dirRound (d : Disk) (stack : Buf) (v : Volume) (own : Bool) (hit : Object → Bool) (s : Dir) :
    Io (Dir ⊕ DirEnd) :=
  if s.ocBlock = 0 then pure (.inr ⟨s.passed, .error .eNoFile⟩)
  else if 4096 < s.guard + 1 then pure (.inr ⟨s.passed, .error .eNoFile⟩)
  else do
    let (ret, b) ← readBlock d v.partLoc s.ocBlock stack
    dirBlock own hit s ret b

def walkDir (d : Disk) (stack : Buf) (v : Volume) (own : Bool) (hit : Object → Bool)
    (firstOc : Nat) : Io DirEnd :=
  .loop (dirRound d stack v own hit) ⟨firstOc, 0, []⟩

def sfsDirLookup (d : Disk) (stack : Buf) (v : Volume) (firstOc : Nat) (name : List UInt8) :
    Io (Except Retcode Object) := do
  let e ← walkDir d stack v true (fun o => sfsNameEq v o.name name) firstOc
  pure e.found

/-- The objects that are listed. -/
def sfsListDirectory (d : Disk) (stack : Buf) (v : Volume) (firstOc : Nat) : Io (List Object) := do
  let e ← walkDir d stack v false (fun _ => false) firstOc
  pure e.passed

/-- The result of a path walk: `*out_data`, `*out_size` and `*out_bits`. -/
structure Target where
  data : Nat
  size : Nat
  bits : Nat

def Target.isDir (t : Target) : Bool := t.bits.testBit 7

def Target.isLink (t : Target) : Bool := t.bits.testBit 6

def walker (d : Disk) (stack : Buf) (v : Volume) : Walker Nat Object Target where
  lookup := sfsDirLookup d stack v
  last o := if o.isDir then ⟨o.size, 0, o.bits⟩ else ⟨o.data, o.size, o.bits⟩
  enter o := if o.isDir ∧ ¬ o.isLink ∧ o.size ≠ 0 then some o.size else none
  here dir := ⟨dir, 0, 128⟩

def sfsWalkPath (d : Disk) (stack : Buf) (v : Volume) (path : List Char) :
    Io (Except Retcode Target) :=
  (walker d stack v).walkPath v.rootDirFirstOc path

def bnode (b : Buf) (i : Nat) : Nat := 16 + i * b.nat 15

/-- What is checked of a node of the extent tree. -/
def NodeOk (b : Buf) : Prop :=
  be32 b 0 = blockidBndc ∧ 8 ≤ b.nat 15 ∧ b.nat 15 ≤ 64 ∧ be16 b 12 ≠ 0 ∧
    16 + be16 b 12 * b.nat 15 ≤ bsize

instance (b : Buf) : Decidable (NodeOk b) := inferInstanceAs (Decidable (_ ∧ _))

/-- The entry of a leaf with the key `key`, from entry `i` on, `n` entries being left. -/
def leafEntry (b : Buf) (key : Nat) (i : Nat) : Nat → Option Nat
  | 0 => none
  | n + 1 => if be32 b (bnode b i) = key then some (bnode b i) else leafEntry b key (i + 1) n

/-- The last entry whose key is not above `key`, from entry `i` on, `n` entries being left. -/
def childEntry (b : Buf) (key : Nat) (child i : Nat) : Nat → Nat
  | 0 => child
  | n + 1 =>
    if be32 b (bnode b i) ≤ key then childEntry b key (be32 b (bnode b i + 4)) (i + 1) n
    else child

/-- The child to descend to, which is the leftmost one if `key` is before all keys. -/
def child (b : Buf) (key : Nat) : Nat :=
  if childEntry b key 0 0 (be16 b 12) = 0 then be32 b (16 + 4) else childEntry b key 0 0 (be16 b 12)

def leaf (b : Buf) (key : Nat) : Option Nat → Except Retcode Extent
  | none => .error .eNoFile
  | some bn => .ok ⟨key, be16 b (bn + 12), be32 b (bn + 4)⟩

/-- A round of the descent, with the node in `b`, at a depth. -/
def descend (key depth : Nat) (ret : Retcode) (b : Buf) : (Nat × Nat) ⊕ Except Retcode Extent :=
  if ret ≠ .noError then .inr (.error ret)
  else if ¬ NodeOk b then .inr (.error .eNoFile)
  else if b.nat 14 ≠ 0 then .inr (leaf b key (leafEntry b key 0 (be16 b 12)))
  else .inl (child b key, depth + 1)

def extentTreeRound (d : Disk) (stack : Buf) (v : Volume) (key : Nat) (s : Nat × Nat) :
    Io ((Nat × Nat) ⊕ Except Retcode Extent) :=
  if s.1 ≠ 0 ∧ s.2 < 32 then do
    let (ret, b) ← readBlock d v.partLoc s.1 stack
    pure (descend key s.2 ret b)
  else pure (.inr (.error .eNoFile))

def sfsLookupExtent (d : Disk) (stack : Buf) (v : Volume) (key : Nat) :
    Io (Except Retcode Extent) :=
  .loop (extentTreeRound d stack v key) (v.extentBnRoot, 0)

def sfsReadFileContents (d : Disk) (stack : Buf) (v : Volume) (firstData byteSize : Nat)
    (out : Buf) : Io (Retcode × Copied) :=
  readFile d stack v.partLoc (sfsLookupExtent d stack v) firstData byteSize out

/-- `FS_LIST` of what the path leads to. What it prints is not part of the reply. -/
def list (d : Disk) (stack : Buf) (v : Volume) (q : Call) : Except Retcode Target → Io Reply
  | .error _ => pure (q.reply .eNoFile)
  | .ok t =>
    if t.isDir then do
      let _ ← sfsListDirectory d stack v t.data
      pure (q.reply .rEnd)
    else pure (q.reply .rEnd)

/-- `FS_LOAD` of what the path leads to. -/
def load (d : Disk) (stack : Buf) (v : Volume) (q : Call) : Except Retcode Target → Io Reply
  | .error _ => pure (q.reply .eNoFile)
  | .ok t =>
    if t.isDir ∨ t.isLink then pure (q.reply .eNoFile)
    else do
      let (ret, c) ← sfsReadFileContents d stack v t.data t.size q.retbuf
      pure (loaded q ret c)

def act (d : Disk) (stack : Buf) (v : Volume) (q : Call) : Action → Io Reply
  | .probe => pure { q.reply .rEnd with probed := q.probed ++ ",amiga-sfs".toList, val := q.loc }
  | .list => do
    let t ← sfsWalkPath d stack v q.path
    list d stack v q t
  | .load => do
    let t ← sfsWalkPath d stack v q.path
    load d stack v q t

def afterOpen (d : Disk) (stack : Buf) (q : Call) : Option Volume → Io Reply
  | none => pure (q.reply .eNoFilesys)
  | some v => act d stack v q q.what

/-- `amiga_sfs` after the read of the boot block. -/
def afterBoot (d : Disk) (stack : Buf) (q : Call) (ret : Retcode) (boot : Buf) : Io Reply :=
  if ret ≠ .noError then pure (q.reply ret)
  else if be32 boot 0 - be32 boot 0 % 2 ^ 8 ≠ dostypeMagic24 then pure (q.reply .eNoFilesys)
  else do
    let v ← sfsOpenVolume d stack q.loc (be32 boot 0) q.buf
    afterOpen d stack q v

def amigaSfs (d : Disk) (stack : Buf) (q : Call) : Io Reply :=
  if q.size < bsize then pure (q.reply .eBlocksize)
  else do
    let (ret, boot) ← readBlock d q.loc 0 stack
    afterBoot d stack q ret boot

theorem le_skipCstring (b : Buf) (p n : Nat) : p ≤ skipCstring b p n := by
  induction n generalizing p with
  | zero => exact Nat.le_refl p
  | succ n ih =>
    rw [skipCstring]
    split_ifs
    · exact Nat.le_succ p
    · exact Nat.le_of_succ_le (ih (p + 1))

theorem skipCstring_le (b : Buf) (p n : Nat) : skipCstring b p n ≤ p + n := by
  induction n generalizing p with
  | zero => exact Nat.le_refl p
  | succ n ih =>
    rw [skipCstring]
    split_ifs
    · exact Nat.add_le_add_left (Nat.succ_le_succ (Nat.zero_le n)) p
    · rw [Nat.add_comm n 1, ← Nat.add_assoc]
      exact ih (p + 1)

theorem le_objectRecordSize (h : 25 ≤ avail) (b : Buf) (obj : Nat) :
    25 ≤ objectRecordSize b obj avail := by
  have hname := le_skipCstring b (obj + 25) (avail - 25)
  have hcomment := le_skipCstring b (skipCstring b (obj + 25) (avail - 25))
    (obj + 25 + (avail - 25) - skipCstring b (obj + 25) (avail - 25))
  have hend : obj + 25 ≤ stringsEnd b (obj + 25) (avail - 25) := Nat.le_trans hname hcomment
  rw [objectRecordSize, if_neg (Nat.not_lt.2 h)]
  apply Nat.le_trans (Nat.le_sub_of_add_le _) (Nat.le_add_right _ _)
  rw [Nat.add_comm]
  exact hend

theorem walkObjects_total (hit : Object → Bool) (b : Buf) (passed : List Object) :
    Prog.Total (walkObjects hit b passed) := by
  apply Prog.Total.loop (fun s => bsize - s.1)
  intro s
  apply Prog.Yields.pure
  rw [objectRound]
  split_ifs with hroom
  · exact trivial
  · exact trivial
  · exact trivial
  · have hrec := le_objectRecordSize (Nat.le_sub_of_add_le (Nat.add_comm _ 25 ▸ hroom)) b s.1
    refine ⟨trivial, Nat.sub_lt_sub_left ?_ ?_⟩ <;> omega
  · exact trivial

theorem walkDir_total (d : Disk) (stack : Buf) (v : Volume) (own : Bool) (hit : Object → Bool)
    (firstOc : Nat) : Prog.Total (walkDir d stack v own hit firstOc) := by
  apply Prog.Total.loop (fun s => 4096 - s.guard)
  intro s
  rw [dirRound]
  split_ifs with hend hguard
  · exact Prog.Yields.pure trivial
  · exact Prog.Yields.pure trivial
  · apply Prog.Yields.bind (readBlock_total d v.partLoc s.ocBlock stack)
    rintro ⟨ret, b⟩ _
    show Prog.Yields (dirBlock own hit s ret b) _
    rw [dirBlock]
    split_ifs
    · exact Prog.Yields.pure trivial
    · exact Prog.Yields.pure trivial
    · exact Prog.Yields.pure trivial
    · apply Prog.Yields.bind (walkObjects_total hit b s.passed)
      intro x _
      apply Prog.Yields.pure
      obtain ⟨passed, o⟩ := x
      cases o with
      | some o => exact trivial
      | none => exact ⟨trivial, Nat.sub_succ_lt_self _ _ (Nat.not_lt.1 hguard)⟩

theorem sfsLookupExtent_total (d : Disk) (stack : Buf) (v : Volume) (key : Nat) :
    Prog.Total (sfsLookupExtent d stack v key) := by
  apply Prog.Total.loop (fun s => 32 - s.2)
  intro s
  rw [extentTreeRound]
  split_ifs with h
  · apply Prog.Yields.bind (readBlock_total d v.partLoc s.1 stack)
    intro y _
    apply Prog.Yields.pure
    rw [descend]
    split_ifs
    · exact trivial
    · exact trivial
    · exact ⟨trivial, Nat.sub_succ_lt_self _ _ h.2⟩
    · exact trivial
  · exact Prog.Yields.pure trivial

theorem sfsWalkPath_total (d : Disk) (stack : Buf) (v : Volume) (path : List Char) :
    Prog.Total (sfsWalkPath d stack v path) :=
  (walker d stack v).walkPath_total (fun dir _ =>
    (walkDir_total d stack v true _ dir).bind fun _ => .pure _) _ _

theorem sfsOpenVolume_total (d : Disk) (stack : Buf) (partLoc dostype : Nat) (buf : Buf) :
    Prog.Total (sfsOpenVolume d stack partLoc dostype buf) := by
  have hfind (bs : List Nat) (buf : Buf) : Prog.Total (findRoot d partLoc bs buf) := by
    induction bs generalizing buf with
    | nil => exact .pure _
    | cons b bs ih =>
      apply (readBlock_total d partLoc b buf).bind
      rintro ⟨ret, buf'⟩
      dsimp only
      split_ifs
      · exact .pure _
      · exact ih buf'
  apply (hfind [0, 1] buf).bind
  intro root
  cases root with
  | none => exact .pure _
  | some root =>
    rw [openRoot]
    split_ifs
    · exact (readBlock_total d partLoc _ stack).bind fun _ => .pure _
    · exact .pure _

theorem act_total (d : Disk) (stack : Buf) (v : Volume) (q : Call) (what : Action) :
    Prog.Total (act d stack v q what) := by
  cases what with
  | probe => exact .pure _
  | list =>
    apply (sfsWalkPath_total d stack v q.path).bind
    intro t
    cases t with
    | error ret => exact .pure _
    | ok t =>
      rw [list]
      split_ifs
      · exact ((walkDir_total d stack v false _ t.data).bind fun _ => .pure _).bind
          fun _ => .pure _
      · exact .pure _
  | load =>
    apply (sfsWalkPath_total d stack v q.path).bind
    intro t
    cases t with
    | error ret => exact .pure _
    | ok t =>
      rw [load]
      split_ifs
      · exact .pure _
      · exact (readFile_total d stack v.partLoc t.data t.size q.retbuf
          (sfsLookupExtent_total d stack v)).bind fun _ => .pure _

theorem amigaSfs_total (d : Disk) (stack : Buf) (q : Call) : Prog.Total (amigaSfs d stack q) := by
  rw [amigaSfs]
  split_ifs
  · exact .pure _
  · apply (readBlock_total d q.loc 0 stack).bind
    rintro ⟨ret, boot⟩
    show Prog.Total (afterBoot d stack q ret boot)
    rw [afterBoot]
    split_ifs
    · exact .pure _
    · exact .pure _
    · apply (sfsOpenVolume_total d stack q.loc _ q.buf).bind
      intro v
      cases v with
      | none => exact .pure _
      | some v => exact act_total d stack v q q.what

end Sfs

end Pegasos2.Fs
