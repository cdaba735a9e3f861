import Pegasos2.VolumeImage

namespace Pegasos2.Fs
set_option autoImplicit true

namespace MkExfat

def sector : Nat := 512

def spcShift : Nat := 3

def bpsShift : Nat := 9

def cluster : Nat := sector <<< spcShift

def fatOff : Nat := 24

def fatLen : Nat := 8

def clusheapOff : Nat := 32

def rootCluster : Nat := 2

def dataCluster : Nat := 3

/-- A little-endian field of eight bytes, as its two halves. -/
def packQ (off v : Nat) : List Field := [le off 4 (v % 2 ^ 32), le (off + 4) 4 (v / 2 ^ 32)]

def bootSectorFields (volumeSectors clusterCount : Nat) : List Field :=
  [slice 0 [0xEB, 0x76, 0x90], slice 3 [0x45, 0x58, 0x46, 0x41, 0x54, 0x20, 0x20, 0x20]] ++
    packQ 64 0 ++ packQ 72 volumeSectors ++
    [le 80 4 fatOff, le 84 4 fatLen, le 88 4 clusheapOff, le 92 4 clusterCount,
      le 96 4 rootCluster, le 100 4 0x50453203, le 104 2 0x0100, le 106 2 0, be 108 1 bpsShift,
      be 109 1 spcShift, be 110 1 1, be 111 1 0x80, be 112 1 0xFF,
      be 120 390 (ofBytes (List.replicate 390 0xF4)), le 510 2 0xAA55]

def bootSector (volumeSectors clusterCount : Nat) : Option Buf :=
  packed (bootSectorFields volumeSectors clusterCount)

def extendedBootSector : Option Buf := packed [le (sector - 4) 4 0xAA550000]

def fileEntry (off secondaryCount attrs : Nat) : List Field :=
  [be off 1 0x85, be (off + 1) 1 secondaryCount, le (off + 4) 2 1, le (off + 20) 2 attrs]

def streamExtEntry (off nameChars firstCluster dataLen : Nat) (noFat : Bool) : List Field :=
  [be off 1 0xC0, be (off + 1) 1 (if noFat then 3 else 1), be (off + 3) 1 nameChars] ++
    packQ (off + 8) dataLen ++ [le (off + 20) 4 firstCluster] ++ packQ (off + 24) dataLen

def fileNameEntry (off : Nat) (nameUtf16Chunk : List UInt8) : List Field :=
  [be off 1 0xC1, slice (off + 2) (nameUtf16Chunk.take 30)]

/-- Part `i` of a name, filled up with zeros. -/
def nameChunk (name : List UInt8) (i : Nat) : List UInt8 :=
  let chunk := ((name.flatMap fun c => [c, 0]).drop (i * 30)).take 30
  chunk ++ List.replicate (30 - chunk.length) 0

def rootDirFields (fileName : List UInt8) (firstCluster dataLen : Nat) : List Field :=
  let fnCount := (fileName.length + 14) / 15
  fileEntry 0 (1 + fnCount) 0 ++ streamExtEntry 32 fileName.length firstCluster dataLen false ++
    (List.range fnCount).flatMap fun i => fileNameEntry (64 + i * 32) (nameChunk fileName i)

/-- The root directory, a cluster. -/
def buildRootDir (fileName : List UInt8) (firstCluster dataLen : Nat) : Option Buf :=
  packed (rootDirFields fileName firstCluster dataLen)

/-- `put` of an entry of the FAT, which has 1024. -/
def putFat (idx val : Nat) (fat : Nat → Nat) : Option (Nat → Nat) :=
  if idx * 4 + 4 ≤ fatLen * sector then some (Function.update fat idx (val % 2 ^ 32)) else none

/-- The links of `n` clusters from `first` on. -/
def putChain (first : Nat) : Nat → (Nat → Nat) → Option (Nat → Nat)
  | 0, fat => some fat
  | n + 1, fat => do
    let fat ← putChain first n fat
    putFat (first + n) (first + n + 1) fat

/-- The entries of the FAT. -/
def buildFat (fileFirstCluster fileClusters : Nat) : Option (Nat → Nat) := do
  let fat ← putFat 0 0xFFFFFFF8 fun _ => 0
  let fat ← putFat 1 0xFFFFFFFF fat
  let fat ← putFat 2 0xFFFFFFFF fat
  let fat ← putChain fileFirstCluster (fileClusters - 1) fat
  putFat (fileFirstCluster + fileClusters - 1) 0xFFFFFFFF fat

def fatByte (fat : Nat → Nat) (i : Nat) : UInt8 := .ofNat (fat (i / 4) / 256 ^ (i % 4))

def clusterCount (volumeSectors : Nat) : Nat := (volumeSectors - clusheapOff) >>> spcShift

def fileClusters (payload : List UInt8) : Nat := (payload.length + cluster - 1) / cluster

/-- The sectors of the image. `none` is a `ValueError`, or a number that does not fit into its
field. -/
def buildImage (volumeSectors : Nat) (payload : List UInt8) : Option (Nat → Buf) :=
  if clusterCount volumeSectors < 3 then none
  else if clusterCount volumeSectors + 1 < dataCluster + fileClusters payload then none
  else do
    let rootDir ← buildRootDir [0x74, 0x65, 0x73, 0x74, 0x2E, 0x65, 0x6C, 0x66] dataCluster
      payload.length
    let fat ← buildFat dataCluster (fileClusters payload)
    let mainBoot ← bootSector volumeSectors (clusterCount volumeSectors)
    let extBoot ← extendedBootSector
    pure fun k =>
      if 40 ≤ k then chunk payload (k - 40)
      else if 32 ≤ k then fun i => rootDir ((k - 32) * sector + i)
      else if 24 ≤ k then fun i => fatByte fat ((k - 24) * sector + i)
      else if 13 ≤ k ∧ k < 21 then extBoot
      else if k = 12 then mainBoot
      else if 1 ≤ k ∧ k < 9 then extBoot
      else if k = 0 then mainBoot
      else fun _ => 0

end MkExfat

end Pegasos2.Fs
