import Pegasos2.VolumeImage

namespace Pegasos2.Fs
set_option autoImplicit true

namespace MkRdb

def blockSize : Nat := 512

def surfaces : Nat := 16

def blksPerTrk : Nat := 63

def sizeBlock : Nat := 128

def magicRdsk : Nat := 0x5244534B

def magicPart : Nat := 0x50415254

def totalCyls (totalBlocks : Nat) : Nat := totalBlocks / (surfaces * blksPerTrk)

def bytesPerCyl : Nat := surfaces * blksPerTrk * blockSize

def partOffset : Nat := 2 * bytesPerCyl

def partitionBlocks (totalBlocks : Nat) : Nat :=
  (totalCyls totalBlocks - 2) * surfaces * blksPerTrk

/-- `pack_u32`, which masks its argument, of the longs from `off` on. -/
def packLongs (off : Nat) : List Nat → List Field
  | [] => []
  | v :: l => be off 4 (u32 v) :: packLongs (off + 4) l

def rigidDiskFields (totalBlocks : Nat) : List Field :=
  packLongs 0 [magicRdsk, 64] ++
    packLongs 12 [7, blockSize, 0x17, 0xFFFFFFFF, 1, 0xFFFFFFFF, 0xFFFFFFFF, 0xFFFFFFFF,
      0xFFFFFFFF, 0xFFFFFFFF, 0xFFFFFFFF, 0xFFFFFFFF, 0xFFFFFFFF, totalCyls totalBlocks,
      blksPerTrk, surfaces]

def buildRigidDiskBlock (totalBlocks : Nat) : Option Buf :=
  checksummed 8 64 (rigidDiskFields totalBlocks)

/-- `total_cyls - 1`, which is masked too, is `-1` for a disk without cylinders. -/
def partitionFields (totalBlocks dostype : Nat) : List Field :=
  packLongs 0 [magicPart, 64] ++ packLongs 12 [7, 0xFFFFFFFF, 1, 0, 0, 0] ++
    [be 36 1 3, slice 37 [0x44, 0x48, 0x30]] ++
    packLongs 128 [16, sizeBlock, 0, surfaces, 1, blksPerTrk, 2, 0, 0, 2,
      totalCyls totalBlocks + 2 ^ 32 - 1, 30, 0, 0xFFFFFF, 0x7FFFFFFF, 0, dostype, 0, 0, 1]

def buildPartitionBlock (totalBlocks dostype : Nat) : Option Buf :=
  checksummed 8 64 (partitionFields totalBlocks dostype)

/-- The number of blocks of a file. -/
def numData (payload : List UInt8) : Nat := (payload.length + blockSize - 1) / blockSize

theorem lt_numData (h : i * bsize < payload.length) : i < numData payload := by
  rw [bsize] at h
  rw [numData, blockSize, Nat.lt_div_iff_mul_lt (by decide)]
  omega

theorem length_le_numData (payload : List UInt8) : payload.length ≤ numData payload * bsize := by
  by_contra hlt
  exact absurd (lt_numData (Nat.not_le.1 hlt)) (Nat.lt_irrefl _)

def fileName : List UInt8 := [0x74, 0x65, 0x73, 0x74, 0x2E, 0x65, 0x6C, 0x66]

def volumeName : List UInt8 := [0x54, 0x45, 0x53, 0x54]

def buildBootBlock (dostype : Nat) : Option Buf := packed [be 0 4 dostype]

def dostypeFfs2 : Nat := 0x444F5307

def tHeader : Nat := 2

def tList : Nat := 16

def stRoot : Nat := 1

/-- `-3`, as a long. -/
def stFile : Nat := 0xFFFFFFFD

def htOffset : Nat := 0x18

def htEntries : Nat := (blockSize - htOffset - 200) / 4

def offSecType : Nat := blockSize - 4

def offExtension : Nat := blockSize - 8

def offParent : Nat := blockSize - 12

def offNextHash : Nat := blockSize - 16

def offName : Nat := blockSize - 80

def offLnfsNac : Nat := blockSize - 92

def offByteSize : Nat := blockSize - 188

def dbHighOff : Nat := blockSize - 208

def dbMax : Nat := (blockSize - 228) / 4

def rootBlock : Nat := 880

def fileHdr : Nat := 881

def firstData : Nat := 882

def foldCh (c : UInt8) : UInt8 :=
  if 0x61 ≤ c ∧ c ≤ 0x7A then c - 0x20
  else if 0xE0 ≤ c ∧ c ≤ 0xFE ∧ c ≠ 0xF7 then c - 0x20
  else c

def nameHash (name : List UInt8) : Nat :=
  name.foldl (fun h c => (h * 13 + (foldCh c).toNat) % 2 ^ 11) name.length % htEntries

def writeBstr (off : Nat) (text : List UInt8) (maxlen : Nat) : List Field :=
  [be off 1 (min text.length (maxlen - 1)), slice (off + 1) (text.take (maxlen - 1))]

/-- `_put_name`, after its assertion. -/
def putName (name : List UInt8) (isLnfs : Bool) : List Field :=
  if isLnfs then [be offLnfsNac 1 name.length, slice (offLnfsNac + 1) name,
    be (offLnfsNac + 1 + name.length) 1 0]
  else [be offName 1 name.length, slice (offName + 1) name]

def nameMax (isLnfs : Bool) : Nat := if isLnfs then 74 else 30

/-- The hash table is a list of buckets and block numbers. -/
def rootFields (volumeName : List UInt8) (hashTable : List (Nat × Nat)) : List Field :=
  [be 0 4 tHeader, be 0x0C 4 htEntries] ++
    hashTable.map (fun x => be (htOffset + x.1 * 4) 4 x.2) ++
    writeBstr offName volumeName 32 ++ [be offSecType 4 stRoot]

/-- `is_lnfs` is an argument that is not used. -/
def buildRootBlock (volumeName : List UInt8) (hashTable : List (Nat × Nat)) : Option Buf :=
  if ∀ x ∈ hashTable, x.1 < htEntries then checksummed 0x14 128 (rootFields volumeName hashTable)
  else none

/-- The pointers from the slot `i` on. -/
def pointerFields (i : Nat) : List Nat → List Field
  | [] => []
  | db :: l => be (dbHighOff - i * 4) 4 db :: pointerFields (i + 1) l

/-- `first_data` and the pointers of a header. -/
def headerPointers (dataBlocks : List Nat) : List Field :=
  (dataBlocks.take 1).map (fun db => be 0x10 4 db) ++ pointerFields 0 dataBlocks

def fileHeaderFields (ownKey parent : Nat) (name : List UInt8) (byteSize : Nat)
    (dataBlocks : List Nat) (nextHash extension : Nat) (isLnfs : Bool) : List Field :=
  [be 0 4 tHeader, be 4 4 ownKey, be 8 4 dataBlocks.length] ++ headerPointers dataBlocks ++
    ([be offByteSize 4 byteSize] ++ putName name isLnfs ++
      [be offExtension 4 extension, be offParent 4 parent, be offNextHash 4 nextHash,
        be offSecType 4 stFile])

def buildFileHeader (ownKey parent : Nat) (name : List UInt8) (byteSize : Nat)
    (dataBlocks : List Nat) (nextHash extension : Nat) (isLnfs : Bool) : Option Buf :=
  if dataBlocks.length ≤ dbMax ∧ name.length ≤ nameMax isLnfs then
    checksummed 0x14 128
      (fileHeaderFields ownKey parent name byteSize dataBlocks nextHash extension isLnfs)
  else none

def extensionFields (ownKey parent : Nat) (dataBlocks : List Nat) (nextExtension : Nat) :
    List Field :=
  [be 0 4 tList, be 4 4 ownKey, be 8 4 dataBlocks.length] ++ pointerFields 0 dataBlocks ++
    [be offExtension 4 nextExtension, be offParent 4 parent, be offSecType 4 stFile]

def buildExtensionBlock (ownKey parent : Nat) (dataBlocks : List Nat) (nextExtension : Nat) :
    Option Buf :=
  if dataBlocks.length ≤ dbMax then
    checksummed 0x14 128 (extensionFields ownKey parent dataBlocks nextExtension)
  else none

/-- Group `k` of the data blocks. -/
def dataGroup (payload : List UInt8) (k : Nat) : List Nat :=
  ((List.range' firstData (numData payload)).drop (k * dbMax)).take dbMax

/-- The number of extension blocks, one less than that of the groups, of which there is at least
one. -/
def numExt (payload : List UInt8) : Nat := (numData payload + dbMax - 1) / dbMax - 1

def firstExt (payload : List UInt8) : Nat := firstData + numData payload

/-- The extension block behind group `k`, or 0. -/
def extAfter (payload : List UInt8) (k : Nat) : Nat :=
  if k < numExt payload then firstExt payload + k else 0

/-- The blocks of the partition, unless an assertion fails or a number does not fit. -/
def buildFilesystem (payload : List UInt8) (partitionBlocks dostype : Nat) :
    Option (Nat → Buf) :=
  let isLnfs := dostype % 2 ^ 8 == 6 || dostype % 2 ^ 8 == 7
  if dostype % 2 = 1 ∧ firstExt payload + numExt payload - 1 < partitionBlocks then do
    let boot ← buildBootBlock dostype
    let header ← buildFileHeader fileHdr rootBlock fileName payload.length (dataGroup payload 0) 0
      (extAfter payload 0) isLnfs
    let exts ← (List.range (numExt payload)).mapM fun k =>
      buildExtensionBlock (firstExt payload + k) fileHdr (dataGroup payload (k + 1))
        (extAfter payload (k + 1))
    let root ← buildRootBlock volumeName [(nameHash fileName, fileHdr)]
    pure fun k =>
      if k = rootBlock then root
      else if firstData ≤ k ∧ k < firstExt payload then chunk payload (k - firstData)
      else if firstExt payload ≤ k ∧ k < firstExt payload + numExt payload then
        exts.getD (k - firstExt payload) fun _ => 0
      else if k = fileHdr then header
      else if k = 0 then boot
      else fun _ => 0
  else none

def sfsObjcMagic : Nat := 0x4F424A43

def sfsBndcMagic : Nat := 0x424E4443

def sfsStructureVersion : Nat := 3

def sfsRootFields (ownblock seqno totalblocks rootobjc extentBt : Nat) : List Field :=
  [be 8 4 ownblock, be 12 2 sfsStructureVersion, be 14 2 seqno, be 20 1 0, be 48 4 totalblocks,
    be 52 4 blockSize, be 104 4 rootobjc, be 108 4 extentBt]

def buildSfsRootBlock (ownblock seqno totalblocks rootobjc extentBt : Nat) : Option Buf :=
  checksummed 4 128 (sfsRootFields ownblock seqno totalblocks rootobjc extentBt)

def writeFsobject (off node : Nat) (isDir : Bool) (name : List UInt8) (dataField sizeField : Nat) :
    List Field :=
  [be off 2 0, be (off + 2) 2 0, be (off + 4) 4 node, be (off + 8) 4 0x0F,
    be (off + 12) 4 dataField, be (off + 16) 4 sizeField, be (off + 20) 4 0,
    be (off + 24) 1 (if isDir then 0x80 else 0), slice (off + 25) (name ++ [0]),
    be (off + 25 + (name ++ [0]).length) 1 0]

/-- An object container with one object. -/
def sfsObjcFields (ownblock parent : Nat) (obj : List Field) : List Field :=
  [be 0 4 sfsObjcMagic, be 8 4 ownblock, be 12 4 parent, be 16 4 0, be 20 4 0] ++ obj

def buildSfsRootObjc (ownblock : Nat) (volumeName : List UInt8) (rootdirFirstblock : Nat) :
    Option Buf :=
  checksummed 4 128
    (sfsObjcFields ownblock 1 (writeFsobject 24 2 true volumeName 0 rootdirFirstblock))

def buildSfsTopdirOc (ownblock : Nat) (fileName : List UInt8) (fileData fileSize : Nat) :
    Option Buf :=
  checksummed 4 128 (sfsObjcFields ownblock 2 (writeFsobject 24 3 false fileName fileData fileSize))

/-- The extents from `off` on. -/
def sfsExtentFields (off : Nat) : List (Nat × Nat) → List Field
  | [] => []
  | (key, nblocks) :: l =>
    [be off 4 key, be (off + 4) 4 0, be (off + 8) 4 0, be (off + 12) 2 nblocks] ++
      sfsExtentFields (off + 14) l

def sfsExtentTreeFields (ownblock : Nat) (extents : List (Nat × Nat)) : List Field :=
  [be 0 4 sfsBndcMagic, be 8 4 ownblock, be 12 2 extents.length, be 14 1 1, be 15 1 14] ++
    sfsExtentFields 16 extents

def buildSfsExtentTree (ownblock : Nat) (extents : List (Nat × Nat)) : Option Buf :=
  checksummed 4 128 (sfsExtentTreeFields ownblock extents)

/-- The blocks of the partition. `none` is a failed assertion, or a number that does not fit into
its field. -/
def buildSfsFilesystem (payload : List UInt8) (partitionBlocks dostype : Nat) :
    Option (Nat → Buf) :=
  if dostype % 2 ^ 32 - dostype % 2 ^ 8 = 0x53465300 ∧ numData payload ≤ 0xFFFF ∧
      5 + numData payload - 1 < partitionBlocks - 1 then do
    let boot ← buildBootBlock dostype
    let root ← buildSfsRootBlock 1 1 partitionBlocks 2 3
    let rootObjc ← buildSfsRootObjc 2 volumeName 4
    let topdir ← buildSfsTopdirOc 4 fileName 5 payload.length
    let extents ← buildSfsExtentTree 3 [(5, numData payload)]
    let secondary ← buildSfsRootBlock (partitionBlocks - 1) 0 partitionBlocks 2 3
    pure fun k =>
      if k = partitionBlocks - 1 then secondary
      else if 5 ≤ k ∧ k < 5 + numData payload then chunk payload (k - 5)
      else if k = 3 then extents
      else if k = 4 then topdir
      else if k = 2 then rootObjc
      else if k = 1 then root
      else if k = 0 then boot
      else fun _ => 0
  else none

def pfsIdDb : Nat := 0x4442

def pfsIdAb : Nat := 0x4142

def pfsIdIb : Nat := 0x4942

def pfsStFile : Nat := 0xFD

def pfsRootFields (dostype firstreserved lastreserved disksize indexblockBnr : Nat) :
    List Field :=
  [be 0 4 dostype, be 4 4 1, be 8 4 1, be 20 1 4, slice 21 volumeName, be 52 4 lastreserved,
    be 56 4 firstreserved, be 60 4 0, be 64 2 blockSize, be 66 2 1, be 68 4 0, be 72 4 0,
    be 84 4 disksize, be 116 4 indexblockBnr]

def buildPfsRootBlock (dostype firstreserved lastreserved disksize indexblockBnr : Nat) :
    Option Buf :=
  packed (pfsRootFields dostype firstreserved lastreserved disksize indexblockBnr)

def pfsIndexFields (anodeblockBnr : Nat) : List Field :=
  [be 0 2 pfsIdIb, be 12 4 anodeblockBnr]

def buildPfsIndexblock (anodeblockBnr : Nat) : Option Buf := packed (pfsIndexFields anodeblockBnr)

/-- The anodes, with number, cluster size, block number and successor. -/
def pfsAnodeFields : List (Nat × Nat × Nat × Nat) → List Field
  | [] => []
  | (anr, cl, bnr, nxt) :: l =>
    [be (16 + anr * 12) 4 cl, be (16 + anr * 12 + 4) 4 bnr, be (16 + anr * 12 + 8) 4 nxt] ++
      pfsAnodeFields l

def pfsAnodeblockFields (anodes : List (Nat × Nat × Nat × Nat)) : List Field :=
  be 0 2 pfsIdAb :: pfsAnodeFields anodes

def buildPfsAnodeblock (anodes : List (Nat × Nat × Nat × Nat)) : Option Buf :=
  if ∀ a ∈ anodes, a.1 < 41 then packed (pfsAnodeblockFields anodes) else none

/-- The size of a direntry, rounded up to an even number. -/
def pfsRecSize (name : List UInt8) : Nat := 18 + name.length + 1 + (18 + name.length + 1) % 2

def pfsRootdirFields (rootdirAnode : Nat) (fileName : List UInt8) (fileAnode fileSize : Nat) :
    List Field :=
  [be 0 2 pfsIdDb, be 12 4 rootdirAnode, be 16 4 0, be 20 1 (pfsRecSize fileName),
    be 21 1 pfsStFile, be 22 4 fileAnode, be 26 4 fileSize, be 36 1 0, be 37 1 fileName.length,
    slice 38 fileName, be (38 + fileName.length) 1 0]

def buildPfsRootdirBlock (rootdirAnode : Nat) (fileName : List UInt8) (fileAnode fileSize : Nat) :
    Option Buf :=
  if pfsRecSize fileName ≤ 255 then
    packed (pfsRootdirFields rootdirAnode fileName fileAnode fileSize)
  else none

/-- The blocks of the partition, unless an assertion fails or a number does not fit. -/
def buildPfsFilesystem (payload : List UInt8) (partitionBlocks dostype : Nat) :
    Option (Nat → Buf) :=
  if (dostype % 2 ^ 32 - dostype % 2 ^ 8 = 0x50465300 ∨
      dostype % 2 ^ 32 - dostype % 2 ^ 8 = 0x41465300) ∧
      6 + numData payload - 1 < partitionBlocks then do
    let boot ← buildBootBlock dostype
    let root ← buildPfsRootBlock dostype 3 5 partitionBlocks 3
    let index ← buildPfsIndexblock 4
    let anodes ← buildPfsAnodeblock [(5, 1, 5, 0), (6, numData payload, 6, 0)]
    let rootdir ← buildPfsRootdirBlock 5 fileName 6 payload.length
    pure fun k =>
      if 6 ≤ k ∧ k < 6 + numData payload then chunk payload (k - 6)
      else if k = 5 then rootdir
      else if k = 4 then anodes
      else if k = 3 then index
      else if k = 2 then root
      else if k = 1 then boot
      else if k = 0 then boot
      else fun _ => 0
  else none

end MkRdb

end Pegasos2.Fs
