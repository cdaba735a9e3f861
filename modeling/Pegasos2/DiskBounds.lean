import Pegasos2.ExfatBounds
import Pegasos2.FfsBounds
import Pegasos2.PfsBounds
import Pegasos2.RdbBounds
import Pegasos2.SfsBounds

namespace Pegasos2.Fs
open Program
set_option autoImplicit true

/-- The program does what `p` does, and breaks none of its conditions in any run. -/
def Respects (c : Checked World α) (p : Io α) : Prop := c.Follows p ∧ ∀ w, ¬ c.Breaks w

theorem Respects.of_follows {c : Checked World α} {p : Io α} (h : c.Follows p) : Respects c p :=
  ⟨h, h.not_breaks⟩

/-- What the file reader has stored when it ends is one piece at the start of `out`, of at most
`limit` bytes. -/
def StoresWithin (p : Io (Retcode × Copied)) (out : Buf) (limit : Nat) : Prop :=
  p.Always fun x => x.2.Within out limit

namespace Sfs

/-- The conditions of the lookups in the extent tree are not among those of the reader. -/
def checkedReadFileContents (d : Disk) (stack : Buf) (v : Volume) (firstData byteSize : Nat)
    (out : Buf) : Checked World (Retcode × Copied) :=
  checkedReadFile d stack v.partLoc (fun key => .lift (sfsLookupExtent d stack v key)) firstData
    byteSize out

theorem sfsReadFileContents_follows (d : Disk) (stack : Buf) (v : Volume)
    (firstData byteSize : Nat) (out : Buf) :
    (checkedReadFileContents d stack v firstData byteSize out).Follows
      (sfsReadFileContents d stack v firstData byteSize out) :=
  readFile_follows (fun _ => .lift _) d stack v.partLoc firstData byteSize out

end Sfs

/-- The parsers of PFS3, of exFAT and of partition blocks examine only bytes of the blocks that they
have read, a name of exFAT has at most 255 code units, and each of the four file readers stores one
piece at the start of its buffer, no longer than the size of the file. -/
theorem parsers_bounded (d : Disk) (stack : Buf) (q : Call) :
    Respects (Pfs.checkedAmigaPfs3 d stack q) (Pfs.amigaPfs3 d stack q) ∧
      Respects (Exfat.checkedFsExfat d stack q) (Exfat.fsExfat d stack q) ∧
      (∀ fs, Respects (Rdb.checkedAmigaRdb d fs q) (Rdb.amigaRdb d fs q)) ∧
      (∀ mem opened, Respects (PartitionPkg.checkedAddPartitions d mem opened stack)
        (PartitionPkg.addPartitionsForDisk d mem opened stack)) ∧
      (∀ v needed cluster s off scratch,
        (Exfat.collectSet d stack v needed cluster s off scratch).Always
          fun x => x.2.name.length ≤ 255) ∧
      (∀ v firstData byteSize out,
        Respects (Sfs.checkedReadFileContents d stack v firstData byteSize out)
          (Sfs.sfsReadFileContents d stack v firstData byteSize out) ∧
        StoresWithin (Sfs.sfsReadFileContents d stack v firstData byteSize out) out byteSize) ∧
      (∀ (v : Ffs.Volume) hint hdr out maxBytes scratch,
        Respects (Ffs.checkedReadFileContents d stack (v.sized hint) hdr out maxBytes scratch)
          (Ffs.readFileContents d stack (v.sized hint) hdr out maxBytes scratch) ∧
        StoresWithin (Ffs.readFileContents d stack (v.sized hint) hdr out maxBytes scratch) out
          (min (be32 hdr (Ffs.offByteSize (Ffs.fsBsize hint))) maxBytes)) ∧
      (∀ v fileAnode byteSize out,
        StoresWithin (Pfs.pfsReadFile d stack v fileAnode byteSize out) out byteSize) ∧
      (∀ v firstCluster dataLen noFat out scratch,
        StoresWithin (Exfat.exfatReadContents d v firstCluster dataLen noFat out scratch) out
          dataLen) := by
  refine ⟨.of_follows (Pfs.amigaPfs3_follows d stack q),
    .of_follows (Exfat.fsExfat_follows d stack q), fun fs => ?_, fun mem opened => ?_,
    Exfat.collectSet_named d stack, fun v firstData byteSize out => ⟨?_, ?_⟩,
    fun v hint hdr out maxBytes scratch => ⟨?_, ?_⟩, fun v fileAnode byteSize out => ?_,
    Exfat.exfatReadContents_within d⟩
  · exact .of_follows (Rdb.amigaRdb_follows d fs q)
  · exact .of_follows (PartitionPkg.checkedAddPartitions_follows d mem opened stack)
  · exact .of_follows (Sfs.sfsReadFileContents_follows d stack v firstData byteSize out)
  · exact readFile_within d stack v.partLoc _ firstData byteSize out
  · exact .of_follows (Ffs.readFileContents_follows (Ffs.sized_adopted v hint) d stack hdr out
      maxBytes scratch)
  · exact Ffs.readFileContents_within d stack (v.sized hint) hdr out maxBytes scratch
  · exact readFile_within d stack v.partLoc _ fileAnode byteSize out

end Pegasos2.Fs
