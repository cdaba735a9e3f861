import Pegasos2.AmigaSfs
import Pegasos2.AmigaPfs3
import Pegasos2.FsExfat
import Pegasos2.PartitionPkg

namespace Pegasos2.Fs
open Program
set_option autoImplicit true

namespace Rdb

section Ends

variable (d : Disk) (fs : Call → Io Reply) (q : Call)

theorem list_or_load (h : q.what ≠ .probe) : q.what = .list ∨ q.what = .load := by
  cases hwhat : q.what with
  | probe => exact absurd hwhat h
  | list => exact .inl rfl
  | load => exact .inr rfl

theorem NoneEntered.not_nested (hwhat : q.what ≠ .probe) (hop : Opened d q w buf w₀)
    (hnone : NoneEntered d q (selectPartition q.path).1 (first buf, w₀)) :
    ¬ NestedCall d q w n call w₁ := by
  intro h
  obtain ⟨buf', w₀', b, w₂, start, size, hop', hpart, hrange, -⟩ := h.slice
  obtain ⟨rfl, rfl⟩ := hop.unique hop'
  apply hnone n b w₂ hpart
  refine ⟨fun hbad => absurd (hrange.symm.trans hbad) (Option.some_ne_none _), ?_,
    list_or_load q hwhat⟩
  rw [h.selected]
  exact (Int.zero_add _).symm

/-- The walk of the partition chain ends, so `amiga_rdb` does unless the file system of the
partition that it enters does not. -/
theorem amigaRdb_ends_iff (hwhat : q.what ≠ .probe) (w : World) :
    Prog.Ends (amigaRdb d fs q) w ↔
      ∀ n call w₁, NestedCall d q w n call w₁ → Prog.Ends (fs call) w₁ := by
  obtain ⟨buf, w₀, hop, hrun⟩ | ⟨hno, ret, w', hrun, -, -⟩ := amigaRdb_opens d fs q hwhat w
  · cases walkEnd d fs q (selectPartition q.path).1 (selectPartition q.path).2 (first buf, w₀) with
    | atEnd _ _ _ hnone hloop =>
      exact ⟨fun _ n call w₁ h => (hnone.not_nested d q hwhat hop h).elim,
        fun _ => ⟨_, _, (hrun _ _).2 hloop⟩⟩
    | broken _ _ _ hnone _ _ hloop =>
      exact ⟨fun _ n call w₁ h => (hnone.not_nested d q hwhat hop h).elim,
        fun _ => ⟨_, _, (hrun _ _).2 hloop⟩⟩
    | @entered n b w₁ start size hpart hrange hidx _ hloop =>
      have hsel : (selectPartition q.path).1 = n := hidx.trans (Int.zero_add _)
      constructor
      · rintro ⟨r, w', h⟩ m call w₂ hnest
        obtain ⟨r', hr', -⟩ := (hloop r w').1 ((hrun r w').1 h)
        obtain ⟨buf', w₀', b', w₃, start', size', hop', hpart', hrange', rfl, rfl⟩ := hnest.slice
        obtain ⟨rfl, rfl⟩ := hop.unique hop'
        obtain rfl : n = m := Int.ofNat.inj (hsel.symm.trans hnest.selected)
        obtain ⟨rfl, rfl⟩ := Prod.mk.injEq _ _ _ _ ▸ Option.some.inj (hpart.symm.trans hpart')
        obtain ⟨rfl, rfl⟩ := Prod.mk.injEq _ _ _ _ ▸ Option.some.inj (hrange.symm.trans hrange')
        exact ⟨r', w', hr'⟩
      · intro h
        obtain ⟨r, w', hr⟩ := h n _ _
          ⟨hsel, buf, w₀, b, w₁, start, size, hop, hpart, hrange, rfl, rfl⟩
        exact ⟨relabel r, w', (hrun _ _).2 ((hloop _ _).2 ⟨r, hr, rfl⟩)⟩
  · refine ⟨fun _ n call w₁ h => ?_, fun _ => hrun.ends⟩
    obtain ⟨buf, w₀, -, -, -, -, hop, -⟩ := h.slice
    exact (hno buf w₀ hop).elim

end Ends

end Rdb

/-- The parsers of volumes and of partition chains end on every disk, whatever it holds and
whichever of its reads fail. -/
theorem parsers_end (d : Disk) (stack : Buf) (fs : Call → Io Reply) (mem : PartitionPkg.Memory)
    (opened : Except Retcode Unit) (q : Call) (w : World)
    (hwhat : q.what = .list ∨ q.what = .load) :
    Prog.Ends (Sfs.amigaSfs d stack q) w ∧ Prog.Ends (Pfs.amigaPfs3 d stack q) w ∧
      Prog.Ends (Exfat.fsExfat d stack q) w ∧
      (Prog.Ends (Rdb.amigaRdb d fs q) w ↔
        ∀ n call w₁, Rdb.NestedCall d q w n call w₁ → Prog.Ends (fs call) w₁) ∧
      Prog.Ends (PartitionPkg.addPartitionsForDisk d mem opened stack) w := by
  have hprobe : q.what ≠ .probe := by
    intro h
    obtain hw | hw := hwhat <;> exact Action.noConfusion (h.symm.trans hw)
  refine ⟨(Sfs.amigaSfs_total d stack q).ends w, (Pfs.amigaPfs3_total d stack q).ends w,
    (Exfat.fsExfat_total d stack q).ends w, Rdb.amigaRdb_ends_iff d fs q hprobe w, ?_⟩
  obtain ⟨x, w', h, -⟩ := PartitionPkg.addPartitionsForDisk_returns d mem opened stack w
  exact h.ends

/-- A disk whose only partition block is its own successor. -/
def cyclicWord : Nat → Nat
  | 130 => 0x682B118D
  | 132 => 1
  | i => PartitionPkg.singleWord i

def cyclic : Disk :=
  (Disk.ofImage fun i => .ofNat (cyclicWord (i / 4) / 256 ^ (3 - i % 4))).toDisk

theorem parsers_end_cyclic :
    let stack : Buf := fun _ => 0
    let fs := Sfs.amigaSfs cyclic stack
    Prog.Ends (fs PartitionPkg.bootDh0) PartitionPkg.firstWorld ∧
      Prog.Ends (Rdb.amigaRdb cyclic fs PartitionPkg.bootDh0) PartitionPkg.firstWorld ∧
      Prog.Ends (PartitionPkg.addPartitionsForDisk cyclic PartitionPkg.plenty (.ok ()) stack)
        PartitionPkg.firstWorld := by
  intro stack fs
  obtain ⟨hsfs, -, -, hrdb, hadd⟩ := parsers_end cyclic stack fs PartitionPkg.plenty (.ok ())
    PartitionPkg.bootDh0 PartitionPkg.firstWorld (.inr rfl)
  exact ⟨hsfs, hrdb.2 fun _ call w₁ _ => (Sfs.amigaSfs_total cyclic stack call).ends w₁, hadd⟩

end Pegasos2.Fs
