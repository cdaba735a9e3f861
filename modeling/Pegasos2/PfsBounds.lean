import Pegasos2.AmigaPfs3
import Pegasos2.FileStores

namespace Pegasos2.Fs
open Program Look
set_option autoImplicit true

def Walker.checkedRound (k : Walker δ ε ρ)
    (lookup : δ → List UInt8 → Checked World (Except Retcode ε)) (s : δ × List Char) :
    Checked World ((δ × List Char) ⊕ Except Retcode ρ) :=
  if s.2 = [] then pure (.inr (.ok (k.here s.1)))
  else if component s.2 = [] then pure (.inl (s.1, (fromSep s.2).tail))
  else do
    let x ← lookup s.1 (component s.2)
    pure (k.next (fromSep s.2) x)

def Walker.checkedWalk (k : Walker δ ε ρ)
    (lookup : δ → List UInt8 → Checked World (Except Retcode ε)) (root : δ) (path : List Char) :
    Checked World (Except Retcode ρ) :=
  .loop (k.checkedRound lookup) (root, path.dropWhile isSep)

theorem Walker.walkPath_follows (k : Walker δ ε ρ)
    {lookup : δ → List UInt8 → Checked World (Except Retcode ε)}
    (h : ∀ dir name, (lookup dir name).Follows (k.lookup dir name)) (root : δ) (path : List Char) :
    (k.checkedWalk lookup root path).Follows (k.walkPath root path) := by
  apply Checked.Follows.loop_of
  intro s
  rw [checkedRound, round]
  split_ifs
  · exact .pure _
  · exact .pure _
  · exact (h s.1 (component s.2)).bind fun _ => .pure _

namespace Pfs

/-- The first `k` pointers to index blocks. -/
def lookIndexblocks : Nat → Look UInt8 (Nat → Nat)
  | 0 => pure fun _ => 0
  | k + 1 => do
    let blocks ← lookIndexblocks k
    let block ← lookBe32 (116 + k * 4)
    pure fun i => if i = k then block else blocks i

/-- What `g_pfs` is set to from the root block. -/
def lookRoot (partLoc dostype : Nat) : Look UInt8 (Option Volume) := do
  let dt ← lookBe32 0
  let options ← lookBe32 4
  let resBsize ← lookBe16 64
  let disksize ← lookBe32 84
  let firstres ← lookBe32 56
  let lastres ← lookBe32 52
  if dt = dostype ∧ options.testBit 7 = false ∧ resBsize = bsize ∧ disksize ≠ 0 ∧ firstres ≠ 0 ∧
      firstres ≤ lastres then do
    let indexblocks ← lookIndexblocks smallNumIndexblocks
    pure (some ⟨partLoc, dostype % 2 ^ 8, resBsize, disksize, firstres, lastres,
      (resBsize - 16) / 12, (resBsize - 12) / 4, indexblocks⟩)
  else pure none

/-- The block in slot `ibSub` of an index block, with 0 if it is no index block. -/
def lookIndex (ibSub : Nat) : Look UInt8 Nat := do
  let id ← lookBe16 0
  if id ≠ idIb then pure 0 else lookBe32 (12 + ibSub * 4)

/-- The anode in slot `abOff` of an anode block. -/
def lookAnode (abOff : Nat) : Look UInt8 (Except Retcode Extent) := do
  let id ← lookBe16 0
  if id ≠ idAb then pure (.error .eReadError)
  else do
    let blocks ← lookBe32 (16 + abOff * 12)
    let first ← lookBe32 (16 + abOff * 12 + 4)
    let next ← lookBe32 (16 + abOff * 12 + 8)
    pure (.ok ⟨first, blocks, next⟩)

/-- The size of the entry at `off`, unless the entries end there. -/
def lookEntry (off : Nat) : Look UInt8 (Option Nat) :=
  if off + 18 < bsize then do
    let size ← lookNat off
    pure (if size = 0 ∨ size < 18 ∨ bsize < off + size then none else some size)
  else pure none

def lookDirentry (off : Nat) : Look UInt8 Direntry := do
  let type ← lookNat (off + 1)
  let anode ← lookBe32 (off + 2)
  let size ← lookBe32 (off + 6)
  let nlen ← lookNat (off + 17)
  let name ← lookBytes (off + 18) nlen
  pure ⟨type, anode, size, name⟩

/-- Whether the entry at `off` has the name `name`. -/
def lookHit (name : List UInt8) (off : Nat) : Look UInt8 Bool := do
  let nlen ← lookNat (off + 17)
  if nlen ≠ 0 ∧ off + 18 + nlen ≤ bsize then lookNameEq foldCh (off + 18) nlen name
  else pure false

/-- A round of the loop of `pfs_scan_dirblock`, at `off`. -/
def lookScan (name : List UInt8) (off : Nat) : Look UInt8 (Nat ⊕ Except Retcode Direntry) := do
  let entry ← lookEntry off
  entry.elim (pure (.inr (.error .eNoFile))) fun size => do
    let hit ← lookHit name off
    if hit then (fun e => .inr (.ok e)) <$> lookDirentry off else pure (.inl (off + size))

/-- A round of the loop over the entries of a block that is listed. -/
def lookListed (s : Nat × List Direntry) :
    Look UInt8 ((Nat × List Direntry) ⊕ List Direntry) := do
  let entry ← lookEntry s.1
  entry.elim (pure (.inr s.2)) fun size => do
    let nlen ← lookNat (s.1 + 17)
    if bsize < s.1 + 18 + nlen then pure (.inr s.2)
    else (fun e => .inl (s.1 + size, s.2 ++ [e])) <$> lookDirentry s.1

def checkedOpenVolume (d : Disk) (partLoc dostype : Nat) (buf : Buf) :
    Checked World (Option Volume) := do
  let (ret, buf) ← .lift (readBlock d partLoc 2 buf)
  if ret ≠ .noError then pure none else .inspect bsize buf (lookRoot partLoc dostype)

/-- `pfs_get_anode` with the anode block. -/
def checkedAnodeIn (abOff : Nat) (ret : Retcode) (b : Buf) :
    Checked World (Except Retcode Extent) :=
  if ret ≠ .noError then pure (.error ret) else .inspect bsize b (lookAnode abOff)

/-- `pfs_get_anode` with the index block. -/
def checkedIndexed (d : Disk) (stack : Buf) (v : Volume) (ibSub abOff : Nat) (ret : Retcode)
    (b : Buf) : Checked World (Except Retcode Extent) :=
  if ret ≠ .noError then pure (.error ret)
  else do
    let abBlk ← .inspect bsize b (lookIndex ibSub)
    if abBlk = 0 then pure (.error .eReadError)
    else do
      let (ret, b) ← .lift (readBlock d v.partLoc abBlk stack)
      checkedAnodeIn abOff ret b

def checkedGetAnode (d : Disk) (stack : Buf) (v : Volume) (anodenr : Nat) :
    Checked World (Except Retcode Extent) :=
  if v.anodesPerBlock = 0 ∨ v.entriesPerIb = 0 then pure (.error .eReadError)
  else
    let abIdx := anodenr / v.anodesPerBlock
    if smallNumIndexblocks ≤ abIdx / v.entriesPerIb then pure (.error .eReadError)
    else if v.indexblocks (abIdx / v.entriesPerIb) = 0 then pure (.error .eReadError)
    else do
      let (ret, b) ← .lift (readBlock d v.partLoc (v.indexblocks (abIdx / v.entriesPerIb)) stack)
      checkedIndexed d stack v (abIdx % v.entriesPerIb) (anodenr % v.anodesPerBlock) ret b

def checkedScanDirblock (dblk : Buf) (name : List UInt8) :
    Checked World (Except Retcode Direntry) := do
  let id ← .inspect bsize dblk (lookBe16 0)
  if id ≠ idDb then pure (.error .eReadError)
  else .loop (fun off => .inspect bsize dblk (lookScan name off)) 20

def checkedLookupBlock (name : List UInt8) (i : Nat) (ret : Retcode) (dblk : Buf) :
    Checked World (Nat ⊕ Option (Except Retcode Direntry)) :=
  if ret ≠ .noError then pure (.inr (some (.error ret)))
  else do
    let r ← checkedScanDirblock dblk name
    pure (scanned i r)

def checkedLookupBlocks (d : Disk) (stack : Buf) (v : Volume) (name : List UInt8) (x : Extent) :
    Checked World (Option (Except Retcode Direntry)) :=
  .loop (fun i =>
    if i < x.blocks then do
      let (ret, dblk) ← .lift (readBlock d v.partLoc (u32 (x.first + i)) stack)
      checkedLookupBlock name i ret dblk
    else pure (.inr none)) 0

def checkedLookupAnode (d : Disk) (stack : Buf) (v : Volume) (name : List UInt8) (guard : Nat) :
    Except Retcode Extent → Checked World ((Nat × Nat) ⊕ Except Retcode Direntry)
  | .error ret => pure (.inr (.error ret))
  | .ok x =>
    if x.first = 0 ∨ x.blocks = 0 then pure (.inr (.error .eNoFile))
    else do
      let r ← checkedLookupBlocks d stack v name x
      pure (lookedUp guard x.next r)

def checkedLookupRound (d : Disk) (stack : Buf) (v : Volume) (name : List UInt8) (s : Nat × Nat) :
    Checked World ((Nat × Nat) ⊕ Except Retcode Direntry) :=
  if s.1 ≠ 0 ∧ s.2 < 4096 then do
    let x ← checkedGetAnode d stack v s.1
    checkedLookupAnode d stack v name s.2 x
  else pure (.inr (.error .eNoFile))

def checkedDirLookup (d : Disk) (stack : Buf) (v : Volume) (dirAnode : Nat) (name : List UInt8) :
    Checked World (Except Retcode Direntry) :=
  .loop (checkedLookupRound d stack v name) (dirAnode, 0)

def checkedListBlock (i : Nat) (passed : List Direntry) (ret : Retcode) (dblk : Buf) :
    Checked World ((Nat × List Direntry) ⊕ (Bool × List Direntry)) :=
  if ret ≠ .noError then pure (.inr (false, passed))
  else do
    let id ← .inspect bsize dblk (lookBe16 0)
    if id ≠ idDb then pure (.inl (i + 1, passed))
    else do
      let passed ← .loop (fun s => .inspect bsize dblk (lookListed s)) (20, passed)
      pure (.inl (i + 1, passed))

def checkedListBlocks (d : Disk) (stack : Buf) (v : Volume) (x : Extent)
    (passed : List Direntry) : Checked World (Bool × List Direntry) :=
  .loop (fun s =>
    if s.1 < x.blocks then do
      let (ret, dblk) ← .lift (readBlock d v.partLoc (u32 (x.first + s.1)) stack)
      checkedListBlock s.1 s.2 ret dblk
    else pure (.inr (true, s.2))) (0, passed)

def checkedListAnode (d : Disk) (stack : Buf) (v : Volume) (s : Listing) :
    Except Retcode Extent → Checked World (Listing ⊕ List Direntry)
  | .error _ => pure (.inr s.passed)
  | .ok x =>
    if x.first = 0 ∨ x.blocks = 0 then pure (.inr s.passed)
    else do
      let (all, passed) ← checkedListBlocks d stack v x s.passed
      pure (if all then .inl ⟨x.next, s.guard + 1, passed⟩ else .inr passed)

def checkedListingRound (d : Disk) (stack : Buf) (v : Volume) (s : Listing) :
    Checked World (Listing ⊕ List Direntry) :=
  if s.anr ≠ 0 ∧ s.guard < 4096 then do
    let x ← checkedGetAnode d stack v s.anr
    checkedListAnode d stack v s x
  else pure (.inr s.passed)

def checkedListDir (d : Disk) (stack : Buf) (v : Volume) (dirAnode : Nat) :
    Checked World (List Direntry) := .loop (checkedListingRound d stack v) ⟨dirAnode, 0, []⟩

def checkedReadFile (d : Disk) (stack : Buf) (v : Volume) (fileAnode byteSize : Nat) (out : Buf) :
    Checked World (Retcode × Copied) :=
  Fs.checkedReadFile d stack v.partLoc (checkedGetAnode d stack v) fileAnode byteSize out

def checkedWalkPath (d : Disk) (stack : Buf) (v : Volume) (path : List Char) :
    Checked World (Except Retcode Target) :=
  (walker d stack v).checkedWalk (checkedDirLookup d stack v) anodeRootdir path

def checkedList (d : Disk) (stack : Buf) (v : Volume) (q : Call) :
    Except Retcode Target → Checked World Reply
  | .error _ => pure (q.reply .eNoFile)
  | .ok t =>
    if t.type = stUserdir then do
      let _ ← checkedListDir d stack v t.anode
      pure (q.reply .rEnd)
    else pure (q.reply .rEnd)

def checkedLoad (d : Disk) (stack : Buf) (v : Volume) (q : Call) :
    Except Retcode Target → Checked World Reply
  | .error _ => pure (q.reply .eNoFile)
  | .ok t =>
    if t.type = stUserdir ∨ t.type = stSoftlink ∨ t.type = stLinkdir ∨ t.type = stLinkfileByte then
      pure (q.reply .eNoFile)
    else do
      let (ret, c) ← checkedReadFile d stack v t.anode t.size q.retbuf
      pure (loaded q ret c)

def checkedAct (d : Disk) (stack : Buf) (v : Volume) (q : Call) : Action → Checked World Reply
  | .probe => pure { q.reply .rEnd with probed := q.probed ++ ",amiga-pfs3".toList, val := q.loc }
  | .list => do
    let t ← checkedWalkPath d stack v q.path
    checkedList d stack v q t
  | .load => do
    let t ← checkedWalkPath d stack v q.path
    checkedLoad d stack v q t

def checkedAfterOpen (d : Disk) (stack : Buf) (q : Call) : Option Volume → Checked World Reply
  | none => pure (q.reply .eNoFilesys)
  | some v => checkedAct d stack v q q.what

/-- `amiga_pfs3` after the read of the boot block. -/
def checkedAfterBoot (d : Disk) (stack : Buf) (q : Call) (ret : Retcode) (boot : Buf) :
    Checked World Reply :=
  if ret ≠ .noError then pure (q.reply .eNoFilesys)
  else do
    let dt ← .inspect bsize boot (lookBe32 0)
    if dt ≠ dtPfs1 ∧ dt ≠ dtPfs2 ∧ dt ≠ dtAfs1 then pure (q.reply .eNoFilesys)
    else do
      let v ← checkedOpenVolume d q.loc dt q.buf
      checkedAfterOpen d stack q v

def checkedAmigaPfs3 (d : Disk) (stack : Buf) (q : Call) : Checked World Reply :=
  if q.size < bsize then pure (q.reply .eBlocksize)
  else do
    let (ret, boot) ← .lift (readBlock d q.loc 0 stack)
    checkedAfterBoot d stack q ret boot

theorem reads_indexblocks (b : Buf) (h : 116 + k * 4 ≤ n) :
    Reads n b (lookIndexblocks k) fun i => if i < k then be32 b (116 + i * 4) else 0 := by
  induction k with
  | zero => exact .pure n b _
  | succ k ih =>
    apply (ih (by omega)).bind
    apply (reads_be32 b (by omega)).bind
    refine (Reads.pure n b _).eq (funext fun i => ?_)
    dsimp only
    obtain hlt | rfl | hgt := Nat.lt_trichotomy i k
    · rw [if_neg (Nat.ne_of_lt hlt), if_pos hlt, if_pos (Nat.lt_succ_of_lt hlt)]
    · rw [if_pos rfl, if_pos (Nat.lt_succ_self i)]
    · rw [if_neg (Nat.ne_of_gt hgt), if_neg (by omega), if_neg (by omega)]

/-- A volume with the pointers to index blocks that the code keeps. -/
def Volume.cut (v : Volume) : Volume :=
  { v with indexblocks := fun i => if i < smallNumIndexblocks then v.indexblocks i else 0 }

theorem reads_root (b : Buf) (partLoc dostype : Nat) :
    Reads bsize b (lookRoot partLoc dostype)
      (if RootOk dostype b then some (volume partLoc dostype b).cut else none) := by
  apply (reads_be32 b (by decide)).bind
  apply (reads_be32 b (by decide)).bind
  apply (reads_be16 b (by decide)).bind
  apply (reads_be32 b (by decide)).bind
  apply (reads_be32 b (by decide)).bind
  apply (reads_be32 b (by decide)).bind
  refine Reads.ite (fun _ => ?_) fun _ => .pure _ b none
  exact (reads_indexblocks b (by decide)).bind (.pure _ b _)

/-- The slots of a volume with reserved blocks of 512 bytes. -/
structure Slots (v : Volume) : Prop where
  anodesPerBlock : v.anodesPerBlock = 41
  entriesPerIb : v.entriesPerIb = 125

theorem slots_volume (hblk : be16 b 64 = bsize) : Slots (volume partLoc dostype b).cut := by
  constructor
  · show (be16 b 64 - 16) / 12 = 41
    rw [hblk]
    rfl
  · show (be16 b 64 - 12) / 4 = 125
    rw [hblk]
    rfl

theorem reads_index (b : Buf) (h : ibSub < 125) :
    Reads bsize b (lookIndex ibSub)
      (if be16 b 0 ≠ idIb then 0 else be32 b (12 + ibSub * 4)) := by
  apply (reads_be16 b (by decide)).bind
  exact Reads.ite (fun _ => .pure _ b 0) fun _ => reads_be32 b (by rw [bsize]; omega)

theorem reads_anode (b : Buf) (h : abOff < 41) :
    Reads bsize b (lookAnode abOff) (anodeIn abOff .noError b) := by
  rw [anodeIn, if_neg (not_not_intro rfl)]
  apply (reads_be16 b (by decide)).bind
  refine Reads.ite (fun _ => .pure _ b _) fun _ => ?_
  apply (reads_be32 b (by rw [bsize]; omega)).bind
  apply (reads_be32 b (by rw [bsize]; omega)).bind
  exact (reads_be32 b (by rw [bsize]; omega)).bind (.pure _ b _)

theorem anodeIn_follows (h : abOff < 41) (ret : Retcode) (b : Buf) :
    (checkedAnodeIn abOff ret b).Follows (pure (anodeIn abOff ret b)) := by
  rw [checkedAnodeIn]
  split_ifs with hret
  · rw [anodeIn, if_pos hret]
    exact .pure _
  · obtain rfl := not_not.1 hret
    exact .inspect (reads_anode b h)

theorem indexed_follows (hsub : ibSub < 125) (hoff : abOff < 41) (d : Disk) (stack : Buf)
    (v : Volume) (ret : Retcode) (b : Buf) :
    (checkedIndexed d stack v ibSub abOff ret b).Follows
      (indexed d stack v ibSub abOff ret b) := by
  rw [checkedIndexed, indexed]
  split_ifs with hret hid hptr
  · exact .pure _
  all_goals
    apply Checked.Follows.inspect_bind (reads_index b hsub)
  · rw [if_pos hid, if_pos rfl]
    exact .pure _
  · rw [if_neg hid, if_pos hptr]
    exact .pure _
  · rw [if_neg hid, if_neg hptr]
    exact (Checked.Follows.lift _).bind fun x => anodeIn_follows hoff x.1 x.2

theorem getAnode_follows (h : Slots v) (d : Disk) (stack : Buf) (anodenr : Nat) :
    (checkedGetAnode d stack v anodenr).Follows (pfsGetAnode d stack v anodenr) := by
  have hsub : anodenr / v.anodesPerBlock % v.entriesPerIb < 125 := by
    rw [h.entriesPerIb]
    exact Nat.mod_lt _ (by decide)
  have hoff : anodenr % v.anodesPerBlock < 41 := by
    rw [h.anodesPerBlock]
    exact Nat.mod_lt _ (by decide)
  rw [checkedGetAnode, pfsGetAnode]
  dsimp only
  split_ifs
  · exact .pure _
  · exact .pure _
  · exact .pure _
  · apply (Checked.Follows.lift _).bind
    intro x
    exact indexed_follows hsub hoff d stack v x.1 x.2

theorem reads_entry (b : Buf) (off : Nat) :
    Reads bsize b (lookEntry off) (if EntryOk b off then some (b.nat off) else none) := by
  have hok : (if EntryOk b off then some (b.nat off) else none) =
      if off + 18 < bsize then
        if b.nat off = 0 ∨ b.nat off < 18 ∨ bsize < off + b.nat off then none
        else some (b.nat off)
      else none := by
    by_cases h : EntryOk b off
    · obtain ⟨hroom, hpos, hmin, hfits⟩ := id h
      rw [if_pos h, if_pos hroom, if_neg (by omega)]
    · rw [if_neg h]
      split_ifs with hroom hbad
      · rfl
      · exact absurd ⟨hroom, by omega, by omega, by omega⟩ h
      · rfl
  rw [hok]
  refine Reads.ite (fun hroom => ?_) fun _ => .pure _ b none
  exact (reads_nat b (by omega)).bind (.pure _ b _)

theorem reads_direntry (b : Buf) (hroom : off + 18 < bsize) (hname : NameOk b off) :
    Reads bsize b (lookDirentry off) (direntry b off) := by
  apply (reads_nat b (by omega)).bind
  apply (reads_be32 b (by omega)).bind
  apply (reads_be32 b (by omega)).bind
  apply (reads_nat b (by omega)).bind
  exact (reads_bytes b hname).bind (.pure _ b _)

theorem reads_hit (name : List UInt8) (b : Buf) (hroom : off + 18 < bsize) :
    Reads bsize b (lookHit name off) (decide (b.nat (off + 17) ≠ 0 ∧ NameOk b off ∧
      nameEq foldCh (direntry b off).name name)) := by
  apply (reads_nat b (by omega)).bind
  split_ifs with h
  · refine (reads_nameEq foldCh b name h.2).eq (Bool.eq_iff_iff.2 ?_)
    rw [decide_eq_true_iff]
    exact ⟨fun heq => ⟨h.1, h.2, heq⟩, fun hall => hall.2.2⟩
  · exact (Reads.pure _ b false).eq (decide_eq_false fun hall => h ⟨hall.1, hall.2.1⟩).symm

theorem reads_scan (name : List UInt8) (b : Buf) (off : Nat) :
    Reads bsize b (lookScan name off) (scanRound name b off) := by
  apply (reads_entry b off).bind
  rw [scanRound]
  split_ifs with hentry hhit
  · apply (reads_hit name b hentry.1).bind
    rw [if_pos (decide_eq_true hhit)]
    exact (reads_direntry b hentry.1 hhit.2.1).map _
  · apply (reads_hit name b hentry.1).bind
    rw [if_neg (Bool.eq_false_iff.1 (decide_eq_false hhit))]
    exact .pure _ b _
  · exact .pure _ b _

theorem reads_listed (b : Buf) (s : Nat × List Direntry) :
    Reads bsize b (lookListed s) (listRound b s) := by
  apply (reads_entry b s.1).bind
  rw [listRound]
  by_cases hentry : EntryOk b s.1
  · have hroom := hentry.1
    rw [if_pos hentry]
    apply (reads_nat b (show s.1 + 17 < bsize by omega)).bind
    by_cases hname : NameOk b s.1
    · rw [if_neg (Nat.not_lt.2 hname), if_pos ⟨hentry, hname⟩]
      exact (reads_direntry b hroom hname).map _
    · rw [if_pos (Nat.not_le.1 hname), if_neg fun h => hname h.2]
      exact .pure _ b _
  · rw [if_neg hentry, if_neg fun h => hentry h.1]
    exact .pure _ b _

theorem scanDirblock_follows (dblk : Buf) (name : List UInt8) :
    (checkedScanDirblock dblk name).Follows (pfsScanDirblock dblk name) := by
  rw [pfsScanDirblock]
  apply Checked.Follows.inspect_bind (reads_be16 dblk (by decide))
  split_ifs
  · exact .pure _
  · exact .loop_of (fun off => .inspect (reads_scan name dblk off)) 20

theorem lookupBlocks_follows (d : Disk) (stack : Buf) (v : Volume) (name : List UInt8)
    (x : Extent) :
    (checkedLookupBlocks d stack v name x).Follows (lookupBlocks d stack v name x) := by
  apply Checked.Follows.loop_of
  intro i
  split_ifs
  · apply (Checked.Follows.lift _).bind
    rintro ⟨ret, dblk⟩
    show Checked.Follows (checkedLookupBlock name i ret dblk) (lookupBlock name i ret dblk)
    rw [checkedLookupBlock, lookupBlock]
    split_ifs
    · exact .pure _
    · exact (scanDirblock_follows dblk name).bind fun _ => .pure _
  · exact .pure _

theorem dirLookup_follows (h : Slots v) (d : Disk) (stack : Buf) (dirAnode : Nat)
    (name : List UInt8) :
    (checkedDirLookup d stack v dirAnode name).Follows
      (pfsDirLookup d stack v dirAnode name) := by
  apply Checked.Follows.loop_of
  intro s
  rw [checkedLookupRound, lookupRound]
  split_ifs
  · apply (getAnode_follows h d stack s.1).bind
    intro x
    cases x with
    | error ret => exact .pure _
    | ok x =>
      rw [checkedLookupAnode, lookupAnode]
      split_ifs
      · exact .pure _
      · exact (lookupBlocks_follows d stack v name x).bind fun _ => .pure _
  · exact .pure _

theorem listBlocks_follows (d : Disk) (stack : Buf) (v : Volume) (x : Extent)
    (passed : List Direntry) :
    (checkedListBlocks d stack v x passed).Follows (listBlocks d stack v x passed) := by
  apply Checked.Follows.loop_of
  intro s
  split_ifs
  · apply (Checked.Follows.lift _).bind
    rintro ⟨ret, dblk⟩
    show Checked.Follows (checkedListBlock s.1 s.2 ret dblk) (listBlock s.1 s.2 ret dblk)
    rw [checkedListBlock, listBlock]
    refine .ite (fun _ => .pure _) fun _ => ?_
    apply Checked.Follows.inspect_bind (reads_be16 dblk (by decide))
    refine .ite (fun _ => .pure _) fun _ => ?_
    exact (Checked.Follows.loop_of (fun s => .inspect (reads_listed dblk s)) _).bind
      fun _ => .pure _
  · exact .pure _

theorem listDir_follows (h : Slots v) (d : Disk) (stack : Buf) (dirAnode : Nat) :
    (checkedListDir d stack v dirAnode).Follows (pfsListDir d stack v dirAnode) := by
  apply Checked.Follows.loop_of
  intro s
  rw [checkedListingRound, listingRound]
  split_ifs
  · apply (getAnode_follows h d stack s.anr).bind
    intro x
    cases x with
    | error ret => exact .pure _
    | ok x =>
      rw [checkedListAnode, listAnode]
      split_ifs
      · exact .pure _
      · exact (listBlocks_follows d stack v x s.passed).bind fun _ => .pure _
  · exact .pure _

theorem pfsReadFile_follows (h : Slots v) (d : Disk) (stack : Buf) (fileAnode byteSize : Nat)
    (out : Buf) :
    (checkedReadFile d stack v fileAnode byteSize out).Follows
      (pfsReadFile d stack v fileAnode byteSize out) :=
  readFile_follows (getAnode_follows h d stack) d stack v.partLoc fileAnode byteSize out

theorem act_follows (h : Slots v) (d : Disk) (stack : Buf) (q : Call) (what : Action) :
    (checkedAct d stack v q what).Follows (act d stack v q what) := by
  have hwalk := (walker d stack v).walkPath_follows (dirLookup_follows h d stack) anodeRootdir
    q.path
  cases what with
  | probe => exact .pure _
  | list =>
    apply hwalk.bind
    intro t
    cases t with
    | error ret => exact .pure _
    | ok t =>
      rw [checkedList, list]
      split_ifs
      · exact (listDir_follows h d stack t.anode).bind fun _ => .pure _
      · exact .pure _
  | load =>
    apply hwalk.bind
    intro t
    cases t with
    | error ret => exact .pure _
    | ok t =>
      rw [checkedLoad, load]
      split_ifs
      · exact .pure _
      · exact (pfsReadFile_follows h d stack t.anode t.size q.retbuf).bind fun _ => .pure _

theorem getAnode_cut (d : Disk) (stack : Buf) (v : Volume) :
    pfsGetAnode d stack v.cut = pfsGetAnode d stack v := by
  funext anodenr
  by_cases hidx : smallNumIndexblocks ≤ anodenr / v.anodesPerBlock / v.entriesPerIb
  · have hbig (u : Volume)
        (hu : smallNumIndexblocks ≤ anodenr / u.anodesPerBlock / u.entriesPerIb) :
        pfsGetAnode d stack u anodenr = pure (.error .eReadError) := by
      rw [pfsGetAnode]
      dsimp only
      rw [if_pos hu, ite_self]
    exact (hbig v.cut hidx).trans (hbig v hidx).symm
  · have hptr : v.cut.indexblocks (anodenr / v.cut.anodesPerBlock / v.cut.entriesPerIb) =
        v.indexblocks (anodenr / v.anodesPerBlock / v.entriesPerIb) := if_pos (Nat.not_le.1 hidx)
    rw [pfsGetAnode, pfsGetAnode]
    dsimp only
    rw [hptr]
    rfl

theorem act_cut (d : Disk) (stack : Buf) (v : Volume) (q : Call) (what : Action) :
    act d stack v.cut q what = act d stack v q what := by
  have hanode := getAnode_cut d stack v
  have hlookup (name : List UInt8) :
      lookupRound d stack v.cut name = lookupRound d stack v name := by
    funext s
    rw [lookupRound, lookupRound, hanode]
    rfl
  have hlist : listingRound d stack v.cut = listingRound d stack v := by
    funext s
    rw [listingRound, listingRound, hanode]
    rfl
  have hwalk : pfsWalkPath d stack v.cut q.path = pfsWalkPath d stack v q.path := by
    rw [pfsWalkPath, pfsWalkPath, walker, walker]
    congr 2
    funext dir name
    rw [pfsDirLookup, pfsDirLookup, hlookup]
  cases what with
  | probe => rfl
  | list =>
    rw [act, act, hwalk]
    congr 1
    funext t
    cases t with
    | error ret => rfl
    | ok t => rw [list, list, pfsListDir, pfsListDir, hlist]
  | load =>
    rw [act, act, hwalk]
    congr 1
    funext t
    cases t with
    | error ret => rfl
    | ok t =>
      rw [load, load, pfsReadFile, pfsReadFile, hanode]
      rfl

theorem openVolume_follows (d : Disk) (partLoc dostype : Nat) (buf : Buf) :
    (checkedOpenVolume d partLoc dostype buf).Follows
      (pfsOpenVolume d partLoc dostype buf >>= fun v => pure (v.map Volume.cut)) := by
  rw [pfsOpenVolume, Prog.bind_assoc]
  apply (Checked.Follows.lift _).bind
  rintro ⟨ret, buf⟩
  dsimp only
  rw [Prog.pure_bind]
  by_cases hret : ret = .noError
  · rw [if_neg (not_not_intro hret)]
    refine .inspect ((reads_root buf partLoc dostype).eq ?_)
    by_cases hok : RootOk dostype buf
    · rw [if_pos hok, if_pos ⟨hret, hok⟩]
      rfl
    · rw [if_neg hok, if_neg fun h => hok h.2]
      rfl
  · rw [if_pos hret, if_neg fun h => hret h.1]
    exact .pure none

theorem openVolume_slots (d : Disk) (partLoc dostype : Nat) (buf : Buf) :
    (pfsOpenVolume d partLoc dostype buf >>= fun v => pure (v.map Volume.cut)).Always
      fun x => ∀ v, x = some v → Slots v := by
  rw [pfsOpenVolume, Prog.bind_assoc]
  refine Prog.Always.after fun x => ?_
  rw [Prog.pure_bind]
  refine Prog.Always.pure fun v hv => ?_
  split_ifs at hv with hok
  · obtain rfl := Option.some.inj hv
    exact slots_volume hok.2.2.2.1
  · exact absurd hv (Option.some_ne_none v).symm

theorem amigaPfs3_follows (d : Disk) (stack : Buf) (q : Call) :
    (checkedAmigaPfs3 d stack q).Follows (amigaPfs3 d stack q) := by
  have hopen (v : Option Volume) :
      afterOpen d stack q (v.map Volume.cut) = afterOpen d stack q v := by
    cases v with
    | none => rfl
    | some v => exact act_cut d stack v q q.what
  rw [checkedAmigaPfs3, amigaPfs3]
  split_ifs
  · exact .pure _
  · apply (Checked.Follows.lift _).bind
    rintro ⟨ret, boot⟩
    show Checked.Follows (checkedAfterBoot d stack q ret boot) (afterBoot d stack q ret boot)
    rw [checkedAfterBoot, afterBoot]
    refine .ite (fun _ => .pure _) fun _ => ?_
    apply Checked.Follows.inspect_bind (reads_be32 boot (by decide))
    refine .ite (fun _ => .pure _) fun _ => ?_
    have hcut : (pfsOpenVolume d q.loc (be32 boot 0) q.buf >>= afterOpen d stack q) =
        (pfsOpenVolume d q.loc (be32 boot 0) q.buf >>= fun v => pure (v.map Volume.cut)) >>=
          afterOpen d stack q := by
      rw [Prog.bind_assoc]
      congr 1
      funext v
      rw [Prog.pure_bind, hopen]
    refine Eq.trans ?_ (congrArg Checked.lift hcut.symm)
    refine (openVolume_follows d q.loc _ q.buf).bind_of (openVolume_slots d q.loc _ q.buf) ?_
    intro v hv
    cases v with
    | none => exact .pure _
    | some v => exact act_follows (hv v rfl) d stack q q.what

end Pfs

end Pegasos2.Fs
