import Pegasos2.AmigaSfs
import Pegasos2.BlockReads

namespace Pegasos2.Fs
open Program Look
set_option autoImplicit true

namespace Sfs

def lookChecksumOk : Look UInt8 Bool := do
  let sum ← lookChecksum 128
  pure (sum == 0 || sum == 0xFFFFFFFF)

/-- Whether the block, read as block `blk`, is a root block. -/
def lookIsRoot (blk : Nat) : Look UInt8 Bool := do
  let ok ← lookChecksumOk
  if ok then do
    let own ← lookBe32 8
    pure (own = blk)
  else pure false

/-- What `g_sfs` is set to from the root block. -/
def lookRoot (partLoc dostype : Nat) : Look UInt8 (Option Volume) := do
  let version ← lookBe16 12
  let blocksize ← lookBe32 52
  if version = 0 ∨ 99 < version then pure none
  else if blocksize ≠ bsize then pure none
  else do
    let totalblocks ← lookBe32 48
    let rootObjc ← lookBe32 104
    let extentBnRoot ← lookBe32 108
    let bits ← lookNat 20
    if rootObjc = 0 ∨ totalblocks ≤ rootObjc then pure none
    else pure (some ⟨partLoc, dostype % 2 ^ 8, bits.testBit 7, totalblocks, rootObjc, 0, [],
      extentBnRoot⟩)

/-- What `g_sfs` is set to from the container of the root directory object. -/
def lookRootObject (v : Volume) : Look UInt8 (Option Volume) := do
  let blockid ← lookBe32 0
  if blockid ≠ blockidObjc then pure none
  else do
    let node ← lookBe32 (24 + 4)
    if node = 0 then pure none
    else do
      let firstdirblock ← lookBe32 (24 + 16)
      let nlen ← lookCstringLen (24 + 25) 107
      let name ← lookBytes (24 + 25) nlen
      pure (some { v with rootDirFirstOc := firstdirblock, volumeName := name })

def lookSkipCstring (p : Nat) : Nat → Look UInt8 Nat
  | 0 => pure p
  | k + 1 => do
    let c ← peek p
    if c = 0 then pure (p + 1) else lookSkipCstring (p + 1) k

def lookObjectRecordSize (obj avail : Nat) : Look UInt8 Nat :=
  if avail < 25 then pure 0
  else do
    let p ← lookSkipCstring (obj + 25) (avail - 25)
    let p ← lookSkipCstring p (obj + avail - p)
    pure (p - obj + (p - obj) % 2)

/-- The size of the object at `off`, unless the objects end there. -/
def lookRecord (off : Nat) : Look UInt8 (Option Nat) := do
  let node ← lookBe32 (off + 4)
  if node = 0 then pure none
  else do
    let size ← lookObjectRecordSize off (bsize - off)
    pure (if size = 0 ∨ bsize < off + size then none else some size)

/-- What a walk does with the object at `off`, ending there with a result or going on. -/
abbrev Visit := Nat → Look UInt8 (Option Target)

/-- A round of the loop over the objects of a container, at `off`. -/
def lookObject (visit : Visit) (off : Nat) : Look UInt8 (Nat ⊕ Option Target) :=
  if off + 25 ≤ bsize then do
    let record ← lookRecord off
    record.elim (pure (.inr none)) fun size => do
      let hit ← visit off
      pure (hit.elim (.inl (off + size)) fun t => .inr (some t))
  else pure (.inr none)

/-- The object at `off` in `sfs_dir_lookup`. -/
def lookupVisit (v : Volume) (name : List UInt8) : Visit := fun off => do
  let len ← lookCstringLen (off + 25) (bsize - off - 25)
  let eq ← lookNameEq (if v.caseSens then id else foldCh) (off + 25) len name
  if eq then do
    let bits ← lookNat (off + 24)
    let data ← lookBe32 (off + 12)
    let size ← lookBe32 (off + 16)
    pure (some ⟨data, size, bits⟩)
  else pure none

/-- The object at `off` in `sfs_list_directory`, with the name that is printed. -/
def listVisit : Visit := fun off => do
  let _ ← lookNat (off + 24)
  let _ ← lookBe32 (off + 16)
  let len ← lookCstringLen (off + 25) (bsize - off - 25)
  let _ ← lookBytes (off + 25) len
  pure none

/-- Whether the block is a container. `own` says whether it must name itself. -/
def lookIsContainer (own : Bool) (ocBlock : Nat) : Look UInt8 Bool := do
  let blockid ← lookBe32 0
  if blockid ≠ blockidObjc then pure false
  else if own then do
    let ownblock ← lookBe32 8
    pure (ownblock = ocBlock)
  else pure true

/-- The entry of a leaf with the key `key`, from entry `i` on, `n` entries being left. -/
def lookLeafEntry (key nodesize i : Nat) : Nat → Look UInt8 (Except Retcode Extent)
  | 0 => pure (.error .eNoFile)
  | n + 1 => do
    let k ← lookBe32 (16 + i * nodesize)
    if k = key then do
      let blocks ← lookBe16 (16 + i * nodesize + 12)
      let next ← lookBe32 (16 + i * nodesize + 4)
      pure (.ok ⟨key, blocks, next⟩)
    else lookLeafEntry key nodesize (i + 1) n

/-- The last entry whose key is not above `key`, from entry `i` on, `n` entries being left. -/
def lookChildEntry (key nodesize child i : Nat) : Nat → Look UInt8 Nat
  | 0 => pure child
  | n + 1 => do
    let k ← lookBe32 (16 + i * nodesize)
    if k ≤ key then do
      let data ← lookBe32 (16 + i * nodesize + 4)
      lookChildEntry key nodesize data (i + 1) n
    else pure child

def lookChild (key nodesize nodecount : Nat) : Look UInt8 Nat := do
  let child ← lookChildEntry key nodesize 0 0 nodecount
  if child = 0 then lookBe32 (16 + 4) else pure child

def lookEntries (key depth nodecount nodesize isleaf : Nat) :
    Look UInt8 ((Nat × Nat) ⊕ Except Retcode Extent) :=
  if isleaf ≠ 0 then .inr <$> lookLeafEntry key nodesize 0 nodecount
  else (fun block => .inl (block, depth + 1)) <$> lookChild key nodesize nodecount

/-- A node of the extent tree, at a depth of the descent. -/
def lookNode (key depth : Nat) : Look UInt8 ((Nat × Nat) ⊕ Except Retcode Extent) := do
  let blockid ← lookBe32 0
  if blockid ≠ blockidBndc then pure (.inr (.error .eNoFile))
  else do
    let nodecount ← lookBe16 12
    let isleaf ← lookNat 14
    let nodesize ← lookNat 15
    if nodesize < 8 ∨ 64 < nodesize then pure (.inr (.error .eNoFile))
    else if nodecount = 0 then pure (.inr (.error .eNoFile))
    else if bsize < 16 + nodecount * nodesize then pure (.inr (.error .eNoFile))
    else lookEntries key depth nodecount nodesize isleaf

def checkedFindRoot (d : Disk) (partLoc : Nat) : List Nat → Buf → Checked World (Option Buf)
  | [], _ => pure none
  | b :: bs, buf => do
    let (ret, buf) ← .lift (readBlock d partLoc b buf)
    if ret = .noError then do
      let ok ← .inspect bsize buf (lookIsRoot b)
      if ok then pure (some buf) else checkedFindRoot d partLoc bs buf
    else checkedFindRoot d partLoc bs buf

def checkedRootObject (d : Disk) (stack : Buf) : Option Volume → Checked World (Option Volume)
  | none => pure none
  | some v => do
    let (ret, oc) ← .lift (readBlock d v.partLoc v.rootObjcBlock stack)
    if ret ≠ .noError then pure none else .inspect bsize oc (lookRootObject v)

def checkedOpenRoot (d : Disk) (stack : Buf) (partLoc dostype : Nat) :
    Option Buf → Checked World (Option Volume)
  | none => pure none
  | some buf => do
    let v ← .inspect bsize buf (lookRoot partLoc dostype)
    checkedRootObject d stack v

def checkedOpenVolume (d : Disk) (stack : Buf) (partLoc dostype : Nat) (buf : Buf) :
    Checked World (Option Volume) := do
  let root ← checkedFindRoot d partLoc [0, 1] buf
  checkedOpenRoot d stack partLoc dostype root

def checkedObjects (visit : Visit) (b : Buf) : Checked World (Option Target) :=
  .loop (fun off => .inspect bsize b (lookObject visit off)) 24

/-- A round of the container loop, after the walk over the objects of its block. -/
def checkedNext (guard : Nat) (b : Buf) :
    Option Target → Checked World ((Nat × Nat) ⊕ Except Retcode Target)
  | some t => pure (.inr (.ok t))
  | none => do
    let next ← .inspect bsize b (lookBe32 16)
    pure (.inl (next, guard + 1))

def checkedBlock (own : Bool) (visit : Visit) (s : Nat × Nat) (ret : Retcode) (b : Buf) :
    Checked World ((Nat × Nat) ⊕ Except Retcode Target) :=
  if ret ≠ .noError then pure (.inr (.error ret))
  else do
    let ok ← .inspect bsize b (lookIsContainer own s.1)
    if ok then do
      let hit ← checkedObjects visit b
      checkedNext s.2 b hit
    else pure (.inr (.error .eNoFile))

/-- A round of the loop over the containers of a directory, at a block with the loop's guard. -/
def checkedDirRound (d : Disk) (stack : Buf) (v : Volume) (own : Bool) (visit : Visit)
    (s : Nat × Nat) : Checked World ((Nat × Nat) ⊕ Except Retcode Target) :=
  if s.1 = 0 then pure (.inr (.error .eNoFile))
  else if 4096 < s.2 + 1 then pure (.inr (.error .eNoFile))
  else do
    let (ret, b) ← .lift (readBlock d v.partLoc s.1 stack)
    checkedBlock own visit s ret b

def checkedDirLookup (d : Disk) (stack : Buf) (v : Volume) (firstOc : Nat) (name : List UInt8) :
    Checked World (Except Retcode Target) :=
  .loop (checkedDirRound d stack v true (lookupVisit v name)) (firstOc, 0)

def checkedListDirectory (d : Disk) (stack : Buf) (v : Volume) (firstOc : Nat) :
    Checked World Unit := do
  let _ ← .loop (checkedDirRound d stack v false listVisit) (firstOc, 0)

def checkedTreeRound (d : Disk) (stack : Buf) (v : Volume) (key : Nat) (s : Nat × Nat) :
    Checked World ((Nat × Nat) ⊕ Except Retcode Extent) :=
  if s.1 ≠ 0 ∧ s.2 < 32 then do
    let (ret, b) ← .lift (readBlock d v.partLoc s.1 stack)
    if ret ≠ .noError then pure (.inr (.error ret)) else .inspect bsize b (lookNode key s.2)
  else pure (.inr (.error .eNoFile))

def checkedLookupExtent (d : Disk) (stack : Buf) (v : Volume) (key : Nat) :
    Checked World (Except Retcode Extent) :=
  .loop (checkedTreeRound d stack v key) (v.extentBnRoot, 0)

theorem reads_isRoot (b : Buf) (blk : Nat) :
    Reads bsize b (lookIsRoot blk) (decide (sfsChecksumOk b = true ∧ be32 b 8 = blk)) := by
  have hsum : Reads bsize b lookChecksumOk (sfsChecksumOk b) :=
    (reads_checksum b (Nat.le_refl _)).bind (.pure _ b _)
  apply hsum.bind
  split_ifs with hok
  · apply (reads_be32 b (by decide)).bind
    exact (Reads.pure _ b _).eq (decide_eq_decide.2 (and_iff_right hok).symm)
  · exact (Reads.pure _ b _).eq (decide_eq_false fun h => hok h.1).symm

/-- `g_sfs` before the container of the root directory object is read. -/
def rootVolume (partLoc dostype : Nat) (buf : Buf) : Volume where
  partLoc := partLoc
  dostype := dostype % 2 ^ 8
  caseSens := (buf.nat 20).testBit 7
  totalBlocks := be32 buf 48
  rootObjcBlock := be32 buf 104
  rootDirFirstOc := 0
  volumeName := []
  extentBnRoot := be32 buf 108

theorem reads_root (b : Buf) (partLoc dostype : Nat) :
    Reads bsize b (lookRoot partLoc dostype)
      (if RootOk b then some (rootVolume partLoc dostype b) else none) := by
  have hok : (if RootOk b then some (rootVolume partLoc dostype b) else none) =
      if be16 b 12 = 0 ∨ 99 < be16 b 12 then none
      else if be32 b 52 ≠ bsize then none
      else if be32 b 104 = 0 ∨ be32 b 48 ≤ be32 b 104 then none
      else some (rootVolume partLoc dostype b) := by
    by_cases h : RootOk b
    · obtain ⟨hversion, hmax, hsize, hroot, htotal⟩ := id h
      rw [if_pos h, if_neg (by omega), if_neg (not_not_intro hsize), if_neg (by omega)]
    · rw [if_neg h]
      split_ifs with hversion hsize hroot
      · rfl
      · rfl
      · rfl
      · exact absurd ⟨by omega, by omega, not_not.1 hsize, by omega, by omega⟩ h
  rw [hok]
  apply (reads_be16 b (by decide)).bind
  apply (reads_be32 b (by decide)).bind
  apply Reads.ite (fun _ => .pure _ b none) fun _ => ?_
  apply Reads.ite (fun _ => .pure _ b none) fun _ => ?_
  apply (reads_be32 b (by decide)).bind
  apply (reads_be32 b (by decide)).bind
  apply (reads_be32 b (by decide)).bind
  apply (reads_nat b (by decide)).bind
  exact Reads.ite (fun _ => .pure _ b none) fun _ => .pure _ b _

theorem reads_rootObject (b : Buf) (v : Volume) :
    Reads bsize b (lookRootObject v) (if RootObjcOk b then
      some { v with
        rootDirFirstOc := be32 b (24 + 16)
        volumeName := bytes b (24 + 25) (cstringLen b (24 + 25) 107) } else none) := by
  have hlen : 24 + 25 + cstringLen b (24 + 25) 107 ≤ bsize :=
    Nat.le_trans (Nat.add_le_add_left (cstringLen_le b _ _) _) (by decide)
  apply (reads_be32 b (by decide)).bind
  split_ifs with hid hok hok
  · exact absurd hok.1 hid
  · exact .pure _ b none
  all_goals
    apply (reads_be32 b (by decide)).bind
    split_ifs with hnode
  · exact absurd hnode hok.2
  · apply (reads_be32 b (by decide)).bind
    apply (reads_cstringLen b (by decide)).bind
    exact (reads_bytes b hlen).bind (.pure _ b _)
  · exact .pure _ b none
  · exact absurd ⟨not_not.1 hid, hnode⟩ hok

theorem reads_skipCstring (b : Buf) (h : p + k ≤ n) :
    Reads n b (lookSkipCstring p k) (skipCstring b p k) := by
  induction k generalizing p with
  | zero => exact .pure n b p
  | succ k ih =>
    apply (Reads.peek b (by omega)).bind
    rw [skipCstring]
    exact Reads.ite (fun _ => .pure n b _) fun _ => ih (by omega)

theorem reads_objectRecordSize (b : Buf) (off : Nat) :
    Reads bsize b (lookObjectRecordSize off (bsize - off))
      (objectRecordSize b off (bsize - off)) := by
  apply Reads.ite (fun _ => .pure _ b 0) fun hsize => ?_
  have hname := skipCstring_le b (off + 25) (bsize - off - 25)
  have hend : off + 25 + (bsize - off - 25) = off + (bsize - off) := by omega
  apply (reads_skipCstring b (by omega)).bind
  apply (reads_skipCstring b (by omega)).bind
  rw [stringsEnd, hend]
  exact .pure _ b _

theorem reads_record (b : Buf) (h : off + 25 ≤ bsize) :
    Reads bsize b (lookRecord off) (if be32 b (off + 4) = 0 then none
      else if objectRecordSize b off (bsize - off) = 0 ∨
          bsize < off + objectRecordSize b off (bsize - off) then none
      else some (objectRecordSize b off (bsize - off))) := by
  apply (reads_be32 b (by omega)).bind
  apply Reads.ite (fun _ => .pure _ b none) fun _ => ?_
  exact (reads_objectRecordSize b off).bind (.pure _ b _)

/-- The fields of an object that a lookup returns. -/
def Object.target (o : Object) : Target := ⟨o.data, o.size, o.bits⟩

/-- A visit that examines bytes of the block only, and ends at the objects that `hit` holds of. -/
def Visits (visit : Visit) (hit : Object → Bool) : Prop :=
  ∀ b off, off + 25 ≤ bsize → Reads bsize b (visit off)
    (if hit (object b off) then some (object b off).target else none)

theorem lookupVisit_visits (v : Volume) (name : List UInt8) :
    Visits (lookupVisit v name) fun o => sfsNameEq v o.name name := by
  intro b off h
  have hlen := cstringLen_le b (off + 25) (bsize - off - 25)
  apply (reads_cstringLen b (by omega)).bind
  apply (reads_nameEq _ b name (by omega)).bind
  apply Reads.ite (fun _ => ?_) fun _ => .pure _ b none
  apply (reads_nat b (by omega)).bind
  apply (reads_be32 b (by omega)).bind
  exact (reads_be32 b (by omega)).bind (.pure _ b _)

theorem listVisit_visits : Visits listVisit fun _ => false := by
  intro b off h
  have hlen := cstringLen_le b (off + 25) (bsize - off - 25)
  apply (reads_nat b (by omega)).bind
  apply (reads_be32 b (by omega)).bind
  apply (reads_cstringLen b (by omega)).bind
  exact (reads_bytes b (by omega)).bind (.pure _ b none)

/-- What a walk computes of the objects that it comes to. -/
def hitTarget (x : List Object × Option Object) : Option Target := x.2.map Object.target

theorem Visits.object (h : Visits visit hit) (b : Buf) (s : Nat × List Object) :
    Reads bsize b (lookObject visit s.1) ((objectRound hit b s).map Prod.fst hitTarget) := by
  rw [lookObject, objectRound]
  split_ifs with hroom hnode hrec hhit
  · exact (reads_record b hroom).bind (by rw [if_pos hnode]; exact .pure _ b _)
  · exact (reads_record b hroom).bind (by rw [if_neg hnode, if_pos hrec]; exact .pure _ b _)
  · apply (reads_record b hroom).bind
    rw [if_neg hnode, if_neg hrec]
    apply (h b s.1 hroom).bind
    rw [if_pos hhit]
    exact .pure _ b _
  · apply (reads_record b hroom).bind
    rw [if_neg hnode, if_neg hrec]
    apply (h b s.1 hroom).bind
    rw [if_neg hhit]
    exact .pure _ b _
  · exact .pure _ b _

theorem reads_isContainer (b : Buf) (own : Bool) (ocBlock : Nat) :
    Reads bsize b (lookIsContainer own ocBlock)
      (decide (be32 b 0 = blockidObjc ∧ ¬ (own = true ∧ be32 b 8 ≠ ocBlock))) := by
  apply (reads_be32 b (by decide)).bind
  split_ifs with hid hown
  · exact (Reads.pure _ b _).eq (decide_eq_false fun h => hid h.1).symm
  · apply (reads_be32 b (by decide)).bind
    exact (Reads.pure _ b _).eq (decide_eq_decide.2 ⟨fun h => ⟨not_not.1 hid, fun hne => hne.2 h⟩,
      fun h => not_not.1 fun hne => h.2 ⟨hown, hne⟩⟩)
  · exact (Reads.pure _ b _).eq (decide_eq_true ⟨not_not.1 hid, fun h => hown h.1⟩).symm

/-- The entries of a node, of which only the first eight bytes are known to be in the block. -/
theorem NodeOk.entry_le (h : NodeOk b) (hi : i < be16 b 12) : bnode b i + 8 ≤ bsize := by
  obtain ⟨-, hmin, -, -, hfits⟩ := h
  have hmul := Nat.mul_le_mul_right (b.nat 15) (Nat.succ_le_of_lt hi)
  rw [Nat.succ_mul] at hmul
  rw [bnode]
  omega

/-- The entry of a leaf that has the key `key` is in the block, with all its fields. -/
def EntryFits (b : Buf) (key i n : Nat) : Prop :=
  ∀ bn, leafEntry b key i n = some bn → bn + 14 ≤ bsize

theorem leafEntry_examines (h : NodeOk b) (hn : i + n ≤ be16 b 12) :
    Examines bsize b (lookLeafEntry key (b.nat 15) i n) (EntryFits b key i n)
      (leaf b key (leafEntry b key i n)) := by
  induction n generalizing i with
  | zero => exact (Reads.pure _ b _).examines fun _ hbn => absurd hbn (Option.some_ne_none _).symm
  | succ n ih =>
    have hentry := h.entry_le (show i < be16 b 12 by omega)
    apply Examines.after (reads_be32 b (show bnode b i + 4 ≤ bsize by omega))
    show Examines bsize b (if be32 b (bnode b i) = key then _ else _) _ _
    rw [EntryFits, leafEntry]
    split_ifs
    · constructor
      · rw [inside_bind]
        constructor
        · rintro ⟨hblocks, -⟩ bn hbn
          obtain rfl := Option.some.inj hbn
          exact inside_be16.1 hblocks
        · intro hfits
          exact ⟨inside_be16.2 (hfits _ rfl),
            inside_bind.2 ⟨inside_be32.2 hentry, inside_pure _ b _⟩⟩
      · rw [run_bind, run_be16, run_bind, run_be32]
        rfl
    · exact ih (by omega)

theorem reads_childEntry (h : NodeOk b) (hn : i + n ≤ be16 b 12) :
    Reads bsize b (lookChildEntry key (b.nat 15) c i n) (childEntry b key c i n) := by
  induction n generalizing i c with
  | zero => exact .pure _ b c
  | succ n ih =>
    have hentry := h.entry_le (show i < be16 b 12 by omega)
    apply (reads_be32 b (show bnode b i + 4 ≤ bsize by omega)).bind
    refine Reads.ite (fun _ => ?_) fun _ => .pure _ b c
    exact (reads_be32 b (show bnode b i + 4 + 4 ≤ bsize by omega)).bind (ih (by omega))

theorem reads_child (h : NodeOk b) :
    Reads bsize b (lookChild key (b.nat 15) (be16 b 12)) (child b key) := by
  apply (reads_childEntry h (Nat.le_of_eq (Nat.zero_add _))).bind
  exact Reads.ite (fun _ => reads_be32 b (by decide)) fun _ => .pure _ b _

/-- The bytes of a leaf that are examined are in the block if the entry with the key is. -/
def LeafFits (b : Buf) (key : Nat) : Prop :=
  NodeOk b → b.nat 14 ≠ 0 → EntryFits b key 0 (be16 b 12)

theorem entries_examines (h : NodeOk b) (key depth : Nat) :
    Examines bsize b (lookEntries key depth (be16 b 12) (b.nat 15) (b.nat 14)) (LeafFits b key)
      (descend key depth .noError b) := by
  rw [lookEntries, descend, if_neg (not_not_intro rfl), if_neg (not_not_intro h)]
  split_ifs with hleaf
  · obtain ⟨hin, hrun⟩ :=
      (leafEntry_examines h (Nat.le_of_eq (Nat.zero_add _))).map Sum.inr
    exact ⟨hin.trans ⟨fun hfits _ _ => hfits, fun hfits => hfits h hleaf⟩, hrun⟩
  · exact ((reads_child h).map _).examines fun _ hne => absurd hne hleaf

theorem node_examines (b : Buf) (key depth : Nat) :
    Examines bsize b (lookNode key depth) (LeafFits b key) (descend key depth .noError b) := by
  have hbad (h : ¬ NodeOk b) :
      Examines bsize b (pure (.inr (.error .eNoFile))) (LeafFits b key)
        (descend key depth .noError b) := by
    rw [descend, if_neg (not_not_intro rfl), if_pos h]
    exact (Reads.pure _ b _).examines fun hok => absurd hok h
  apply Examines.after (reads_be32 b (by decide))
  split_ifs with hid
  · exact hbad fun h => hid h.1
  apply Examines.after (reads_be16 b (by decide))
  apply Examines.after (reads_nat b (by decide))
  apply Examines.after (reads_nat b (by decide))
  split_ifs with hsize hcount hfits
  · exact hbad fun h => by have := h.2.1; have := h.2.2.1; omega
  · exact hbad fun h => h.2.2.2.1 hcount
  · exact hbad fun h => Nat.not_lt.2 h.2.2.2.2 hfits
  · exact entries_examines ⟨not_not.1 hid, by omega, by omega, hcount, by omega⟩ key depth

theorem findRoot_follows (d : Disk) (partLoc : Nat) (bs : List Nat) (buf : Buf) :
    (checkedFindRoot d partLoc bs buf).Follows (findRoot d partLoc bs buf) := by
  induction bs generalizing buf with
  | nil => exact .pure none
  | cons b bs ih =>
    apply (Checked.Follows.lift (readBlock d partLoc b buf)).bind
    rintro ⟨ret, buf⟩
    dsimp only
    split_ifs with hret hok hok
    · apply Checked.Follows.inspect_bind (reads_isRoot buf b)
      rw [if_pos (decide_eq_true hok.2)]
      exact .pure _
    · apply Checked.Follows.inspect_bind (reads_isRoot buf b)
      rw [if_neg (Bool.eq_false_iff.1 (decide_eq_false fun h => hok ⟨hret, h⟩))]
      exact ih buf
    · exact absurd hok.1 hret
    · exact ih buf

theorem sfsOpenVolume_follows (d : Disk) (stack : Buf) (partLoc dostype : Nat) (buf : Buf) :
    (checkedOpenVolume d stack partLoc dostype buf).Follows
      (sfsOpenVolume d stack partLoc dostype buf) := by
  apply (findRoot_follows d partLoc [0, 1] buf).bind
  intro root
  cases root with
  | none => exact .pure none
  | some buf =>
    apply Checked.Follows.inspect_bind (reads_root buf partLoc dostype)
    rw [openRoot]
    split_ifs with hok
    · apply (Checked.Follows.lift (readBlock d partLoc (be32 buf 104) stack)).bind
      rintro ⟨ret, oc⟩
      dsimp only
      split_ifs with hret hobjc hobjc
      · exact absurd hobjc.1 hret
      · exact .pure none
      · exact .inspect ((reads_rootObject oc _).eq (if_pos hobjc.2))
      · exact .inspect ((reads_rootObject oc _).eq (if_neg fun h => hobjc ⟨not_not.1 hret, h⟩))
    · exact .pure none

theorem walkObjects_follows (h : Visits visit hit) (b : Buf) (passed : List Object) :
    (checkedObjects visit b).Follows
      (walkObjects hit b passed >>= fun x => pure (hitTarget x)) := by
  refine Checked.Follows.loop_map_of Prod.fst hitTarget ?_ ((24, passed) : Nat × List Object)
  intro s
  rw [Prog.pure_bind]
  exact .inspect (h.object b s)

/-- The variables of the container loop that the code has. -/
def Dir.vars (s : Dir) : Nat × Nat := (s.ocBlock, s.guard)

def DirEnd.target (e : DirEnd) : Except Retcode Target := e.found.map Object.target

theorem dirBlock_follows (h : Visits visit hit) (own : Bool) (s : Dir) (ret : Retcode) (b : Buf) :
    (checkedBlock own visit s.vars ret b).Follows
      (dirBlock own hit s ret b >>= fun x => pure (x.map Dir.vars DirEnd.target)) := by
  rw [checkedBlock, dirBlock]
  split_ifs with hret hid hown
  · exact .pure _
  all_goals
    apply Checked.Follows.inspect_bind (reads_isContainer b own s.ocBlock)
  · rw [if_neg (Bool.eq_false_iff.1 (decide_eq_false fun h => hid h.1))]
    exact .pure _
  · rw [if_neg (Bool.eq_false_iff.1 (decide_eq_false fun h => h.2 hown))]
    exact .pure _
  · rw [if_pos (decide_eq_true ⟨not_not.1 hid, hown⟩), Prog.bind_assoc]
    apply (walkObjects_follows h b s.passed).bind_map
    rintro ⟨passed, o⟩
    cases o with
    | some o => exact .pure _
    | none => exact Checked.Follows.inspect_bind (reads_be32 b (by decide)) (.pure _)

theorem walkDir_follows (h : Visits visit hit) (d : Disk) (stack : Buf) (v : Volume) (own : Bool)
    (firstOc : Nat) :
    (Checked.loop (checkedDirRound d stack v own visit) (firstOc, 0)).Follows
      (walkDir d stack v own hit firstOc >>= fun e => pure e.target) := by
  refine Checked.Follows.loop_map_of Dir.vars DirEnd.target ?_ ⟨firstOc, 0, []⟩
  intro s
  rw [checkedDirRound, dirRound]
  show Checked.Follows (if s.ocBlock = 0 then _ else if 4096 < s.guard + 1 then _ else _) _
  split_ifs
  · exact .pure _
  · exact .pure _
  · rw [Prog.bind_assoc]
    exact (Checked.Follows.lift _).bind fun x => dirBlock_follows h own s x.1 x.2

theorem sfsDirLookup_follows (d : Disk) (stack : Buf) (v : Volume) (firstOc : Nat)
    (name : List UInt8) :
    (checkedDirLookup d stack v firstOc name).Follows
      (sfsDirLookup d stack v firstOc name >>= fun x => pure (x.map Object.target)) := by
  rw [sfsDirLookup, Prog.bind_assoc]
  exact walkDir_follows (lookupVisit_visits v name) d stack v true firstOc

theorem sfsListDirectory_follows (d : Disk) (stack : Buf) (v : Volume) (firstOc : Nat) :
    (checkedListDirectory d stack v firstOc).Follows
      (sfsListDirectory d stack v firstOc >>= fun _ => pure ()) := by
  rw [sfsListDirectory, Prog.bind_assoc]
  exact (walkDir_follows listVisit_visits d stack v false firstOc).bind_map fun _ => .pure ()

theorem treeRound_tracks (d : Disk) (stack : Buf) (v : Volume) (key : Nat) (s : Nat × Nat) :
    (checkedTreeRound d stack v key s).Tracks (extentTreeRound d stack v key s) := by
  rw [checkedTreeRound, extentTreeRound]
  split_ifs
  · apply (Checked.Tracks.of_follows (.lift _)).bind
    rintro ⟨ret, b⟩
    show Checked.Tracks (if ret ≠ .noError then _ else _) (pure (descend key s.2 ret b))
    split_ifs with hret
    · rw [descend, if_pos hret]
      exact .of_follows (.pure _)
    · obtain rfl := not_not.1 hret
      rw [← (node_examines b key s.2).2]
      exact .inspect _ _ _
  · exact .of_follows (.pure _)

/-- A node that the descent for `key` reads. -/
def NodeRead (d : Disk) (stack : Buf) (v : Volume) (key : Nat) (w : World) (b : Buf) : Prop :=
  ∃ s w₁ w₂, Prog.Comes (extentTreeRound d stack v key) (v.extentBnRoot, 0) w s w₁ ∧
    (s.1 ≠ 0 ∧ s.2 < 32) ∧ Prog.Halts (readBlock d v.partLoc s.1 stack) w₁ (.noError, b) w₂

theorem treeRound_breaks (d : Disk) (stack : Buf) (v : Volume) (key : Nat) (s : Nat × Nat)
    (w : World) :
    (checkedTreeRound d stack v key s).Breaks w ↔ (s.1 ≠ 0 ∧ s.2 < 32) ∧
      ∃ b w', Prog.Halts (readBlock d v.partLoc s.1 stack) w (.noError, b) w' ∧
        ¬ LeafFits b key := by
  rw [checkedTreeRound]
  split_ifs with h
  · rw [and_iff_right h]
    refine (breaks_read fun x hx => ⟨_, if_pos hx⟩).trans
      (exists_congr fun b => exists_congr fun w' => and_congr_right fun _ => ?_)
    show Checked.Breaks (if Retcode.noError ≠ .noError then _ else _) w' ↔ _
    rw [if_neg (not_not_intro rfl)]
    exact Checked.breaks_inspect.trans (not_congr (node_examines b key s.2).1)
  · exact iff_of_false ((Checked.Follows.pure _).not_breaks w) fun hs => h hs.1

theorem lookupExtent_breaks_iff (d : Disk) (stack : Buf) (v : Volume) (key : Nat) (w : World) :
    (checkedLookupExtent d stack v key).Breaks w ↔
      ∃ b, NodeRead d stack v key w b ∧ ¬ LeafFits b key := by
  rw [checkedLookupExtent, Checked.breaks_loop (treeRound_tracks d stack v key)]
  simp only [treeRound_breaks]
  constructor
  · rintro ⟨s, w₁, hcomes, hs, b, w₂, hread, hfits⟩
    exact ⟨b, ⟨s, w₁, w₂, hcomes, hs, hread⟩, hfits⟩
  · rintro ⟨b, ⟨s, w₁, w₂, hcomes, hs, hread⟩, hfits⟩
    exact ⟨s, w₁, hcomes, hs, b, w₂, hread, hfits⟩

/-- The parser of SFS examines only bytes of the blocks that it has read, if and only if each leaf
that it reads of the extent tree has room for the whole entry with the key. -/
theorem sfs_inside_iff (d : Disk) (stack buf : Buf) (partLoc dostype : Nat) (v : Volume)
    (firstOc key : Nat) (name : List UInt8) (w : World) :
    (¬ (checkedOpenVolume d stack partLoc dostype buf).Breaks w ∧
      (∀ b off, Inside bsize b (lookObjectRecordSize off (bsize - off))) ∧
      ¬ (checkedDirLookup d stack v firstOc name).Breaks w ∧
      ¬ (checkedListDirectory d stack v firstOc).Breaks w ∧
      ¬ (checkedLookupExtent d stack v key).Breaks w) ↔
      ∀ b, NodeRead d stack v key w b → LeafFits b key := by
  rw [and_iff_right ((sfsOpenVolume_follows d stack partLoc dostype buf).not_breaks w),
    and_iff_right fun b off => (reads_objectRecordSize b off).1,
    and_iff_right ((sfsDirLookup_follows d stack v firstOc name).not_breaks w),
    and_iff_right ((sfsListDirectory_follows d stack v firstOc).not_breaks w),
    lookupExtent_breaks_iff, not_exists]
  exact forall_congr' fun b => not_and.trans (imp_congr_right fun _ => not_not)

/-- A leaf with entries of eight bytes, of which the last one ends with the block. -/
def crowdedLeaf : Buf := fun i =>
  match i with
  | 0 => 0x42
  | 1 => 0x4E
  | 2 => 0x44
  | 3 => 0x43
  | 13 => 62
  | 14 => 1
  | 15 => 8
  | 507 => 1
  | _ => 0

def crowdedDrive : ImageDisk := Disk.ofImage fun i => crowdedLeaf (i % bsize)

def crowdedVolume : Volume := ⟨0, 0, false, 4, 1, 1, [], 2⟩

theorem crowdedLeaf_overruns :
    (checkedLookupExtent crowdedDrive.toDisk (fun _ => 0) crowdedVolume 1).Breaks Rdb.boot := by
  let b : Buf := Buf.copy (fun _ => 0) 0 (fun i => crowdedLeaf ((2 * bsize + i) % bsize)) 0 bsize
  have hread : NodeRead crowdedDrive.toDisk (fun _ => 0) crowdedVolume 1 Rdb.boot b :=
    ⟨_, _, _, .here, by decide, ⟨0, rfl⟩⟩
  have hkey : leafEntry b 1 0 (be16 b 12) = some 504 := by decide
  refine (lookupExtent_breaks_iff _ _ _ _ _).2 ⟨b, hread, fun hfits => ?_⟩
  exact absurd (hfits (by decide) (by decide) 504 hkey) (by decide)

end Sfs

end Pegasos2.Fs
