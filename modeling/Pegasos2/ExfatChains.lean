import Pegasos2.FileChains
import Pegasos2.FsExfat

namespace Pegasos2.Fs
open Program
open Ffs (Readable)
set_option autoImplicit true

namespace Exfat

/-- The sectors of a cluster can be read. -/
def ClusterReadable (d : Drive) (v : Volume) (cluster : Nat) : Prop :=
  ∀ j < v.sectorsPerCluster,
    Readable d v.partLoc v.bytesPerSector (u32 (exfatClusterToSector v cluster + j))

/-- How many bytes the sectors of a cluster have. -/
def Volume.clusterBytes (v : Volume) : Nat := v.sectorsPerCluster * v.bytesPerSector

/-- What comes after a cluster of a file: the next cluster, or nothing at the end of the chain. -/
def Follows (d : Drive) (v : Volume) (noFat : Bool) (cluster : Nat) (next : Option Nat) : Prop :=
  if noFat then next = some (u32 (cluster + 1))
  else ∃ value, (∀ scratch, Prog.Yields (exfatFatNext d.toDisk v cluster scratch) (·.1 = value)) ∧
    next = if value = endOfChain then none else some value

/-- The clusters of a file from `cluster` on come to their end after `n` bytes, all of which can be
read. `passed` is how many clusters are before it. -/
inductive ClustersStop (d : Drive) (v : Volume) (noFat : Bool) : Nat → Nat → Nat → Prop where
  | outside (h : ¬ (v.HasCluster cluster ∧ passed < 100000)) :
    ClustersStop d v noFat cluster passed 0
  | last (hcluster : v.HasCluster cluster ∧ passed < 100000) (hreads : ClusterReadable d v cluster)
      (hnext : Follows d v noFat cluster none) :
    ClustersStop d v noFat cluster passed v.clusterBytes
  | next (hcluster : v.HasCluster cluster ∧ passed < 100000) (hreads : ClusterReadable d v cluster)
      (hnext : Follows d v noFat cluster (some next))
      (hrest : ClustersStop d v noFat next (passed + 1) n) :
    ClustersStop d v noFat cluster passed (v.clusterBytes + n)

/-- The clusters of a file end before its size has been reached. -/
def ClustersShort (d : Drive) (v : Volume) (noFat : Bool) (first dataLen : Nat) : Prop :=
  ∃ n < dataLen, ClustersStop d v noFat first 0 n

section

variable {d : Drive} {v : Volume} {dataLen : Nat}

theorem dataRound_piece (d : Drive) (v : Volume) (cluster dataLen : Nat) (s : Nat × Copied × Buf) :
    Prog.Yields (dataRound d.toDisk v cluster dataLen s)
      (PieceRound
        (fun j => Readable d v.partLoc v.bytesPerSector (u32 (exfatClusterToSector v cluster + j)))
        v.sectorsPerCluster dataLen v.bytesPerSector Prod.fst (fun s => s.2.1)
        (fun y : Retcode × Copied × Buf => (y.1, y.2.1)) s) := by
  rw [dataRound]
  by_cases hmore : s.1 < v.sectorsPerCluster ∧ s.2.1.written < dataLen
  · rw [if_pos hmore]
    apply Prog.Yields.bind (readBlockSz_reads d v.partLoc v.bytesPerSector _ s.2.2)
    rintro ⟨ret, scratch⟩ (⟨hret, hok⟩ | ⟨hret, hno⟩)
    · apply Prog.Yields.pure
      rw [if_neg (not_not.2 hret)]
      exact .next hmore.1 hok rfl rfl
    · apply Prog.Yields.pure
      rw [if_pos hret.1]
      exact .fail hmore.1 hno hret
  · rw [if_neg hmore]
    exact Prog.Yields.pure (.done hmore rfl)

theorem exfatFatNext_value (hbps : v.bytesPerSector = 512) (cluster : Nat) :
    ∃ value, ∀ scratch, Prog.Yields (exfatFatNext d.toDisk v cluster scratch) (·.1 = value) := by
  by_cases hcluster : v.HasCluster cluster
  · have houtcome := filesysReadBytes_outcome d (u64 (v.partLoc +
      u32 (v.fatOffset + u32 (cluster * 4) / v.bytesPerSector) * v.bytesPerSector)) v.bytesPerSector
    cases hread : d.read 0 (u64 (v.partLoc + u32 (v.fatOffset +
        u32 (cluster * 4) / v.bytesPerSector) * v.bytesPerSector)) v.bytesPerSector with
    | ok data =>
      refine ⟨le32 data (u32 (cluster * 4) % v.bytesPerSector), fun scratch => ?_⟩
      rw [exfatFatNext, if_pos hcluster]
      rw [hread] at houtcome
      apply Prog.Yields.bind (houtcome scratch)
      rintro _ rfl
      apply Prog.Yields.pure
      dsimp only
      rw [if_neg (not_not.2 rfl)]
      apply le32_congr
      intro j hj
      have hinside : u32 (cluster * 4) % v.bytesPerSector + j < v.bytesPerSector := by
        rw [hbps, u32]
        omega
      rw [← Nat.zero_add (_ + j), Buf.copy_inside _ _ hinside]
    | fail fault left =>
      refine ⟨endOfChain, fun scratch => ?_⟩
      rw [exfatFatNext, if_pos hcluster]
      rw [hread] at houtcome
      apply Prog.Yields.bind (houtcome scratch)
      rintro _ rfl
      apply Prog.Yields.pure
      dsimp only
      rw [if_pos fault.code_ne.1]
  · refine ⟨endOfChain, fun scratch => ?_⟩
    rw [exfatFatNext, if_neg hcluster]
    exact Prog.Yields.pure rfl

theorem exists_follows (d : Drive) (hbps : v.bytesPerSector = 512) (noFat : Bool) (cluster : Nat) :
    ∃ next, Follows d v noFat cluster next := by
  cases noFat with
  | true => exact ⟨_, rfl⟩
  | false =>
    obtain ⟨value, hvalue⟩ := exfatFatNext_value (d := d) hbps cluster
    exact ⟨_, value, hvalue, rfl⟩

theorem contentsNext_yields (hnext : Follows d v noFat s.cluster next) (hmore : c.written < dataLen)
    (scratch : Buf) :
    Prog.Yields (contentsNext d.toDisk v dataLen noFat s .noError c scratch) fun x =>
      match next with
      | none => x = .inr (.noError, c)
      | some k => ∃ b, x = .inl ⟨k, s.guard + 1, c, b⟩ := by
  rw [contentsNext, if_neg (not_not.2 rfl), if_neg (Nat.not_le.2 hmore)]
  cases noFat with
  | true =>
    obtain rfl : next = _ := hnext
    rw [if_pos rfl]
    exact Prog.Yields.pure ⟨scratch, rfl⟩
  | false =>
    obtain ⟨value, hvalue, rfl⟩ : ∃ value, _ := hnext
    rw [if_neg Bool.false_ne_true]
    apply Prog.Yields.bind (hvalue scratch)
    rintro ⟨k, b⟩ rfl
    apply Prog.Yields.pure
    dsimp only
    by_cases hend : k = endOfChain
    · rw [if_pos hend, if_pos hend]
    · rw [if_neg hend, if_neg hend]
      exact ⟨b, rfl⟩

/-- What a round of the loop over the clusters can do. -/
inductive ContentsStep (d : Drive) (v : Volume) (dataLen : Nat) (noFat : Bool) (s : Contents) :
    Contents ⊕ (Retcode × Copied) → Prop where
  | stop (h : ¬ (s.copied.written < dataLen ∧ v.HasCluster s.cluster ∧ s.guard < 100000)) :
    ContentsStep d v dataLen noFat s (.inr (.noError, s.copied))
  | fail (hret : IsError ret) : ContentsStep d v dataLen noFat s (.inr (ret, c))
  | full (hfull : c.written = dataLen) : ContentsStep d v dataLen noFat s (.inr (.noError, c))
  | last (hcluster : v.HasCluster s.cluster ∧ s.guard < 100000)
      (hreads : ClusterReadable d v s.cluster) (hnext : Follows d v noFat s.cluster none)
      (hlt : c.written < dataLen) (hc : c.written = s.copied.written + v.clusterBytes) :
    ContentsStep d v dataLen noFat s (.inr (.noError, c))
  | next (hcluster : v.HasCluster s.cluster ∧ s.guard < 100000)
      (hreads : ClusterReadable d v s.cluster) (hnext : Follows d v noFat s.cluster (some k))
      (hlt : c.written < dataLen) (hc : c.written = s.copied.written + v.clusterBytes) :
    ContentsStep d v dataLen noFat s (.inl ⟨k, s.guard + 1, c, b⟩)

theorem contentsRound_step (hbps : v.bytesPerSector = 512) (hs : s.copied.written ≤ dataLen)
    (h : Prog.Halts (contentsRound d.toDisk v dataLen noFat s) w y w') :
    ContentsStep d v dataLen noFat s y := by
  rw [contentsRound] at h
  by_cases hmore : s.copied.written < dataLen ∧ v.HasCluster s.cluster ∧ s.guard < 100000
  · rw [if_pos hmore] at h
    obtain ⟨⟨ret, c, scratch⟩, w₁, hdata, hnextRun⟩ := h.of_bind
    dsimp only at hnextRun
    cases pieces_halts (dataRound_piece d v s.cluster dataLen) hdata (Nat.zero_le _) hs with
    | fail hret =>
      rw [contentsNext, if_pos hret.1] at hnextRun
      obtain ⟨rfl, -⟩ := hnextRun.of_pure
      exact .fail hret
    | whole hc =>
      rw [contentsNext, if_neg (not_not.2 rfl), if_pos (Nat.le_of_eq hc.symm)] at hnextRun
      obtain ⟨rfl, -⟩ := hnextRun.of_pure
      exact .full hc
    | short hlt hread =>
      obtain ⟨hreads, hwritten⟩ := hread
      obtain ⟨next, hfollows⟩ := exists_follows d hbps noFat s.cluster
      obtain ⟨x, w₂, hx, hshape⟩ := contentsNext_yields hfollows hlt scratch w₁
      obtain ⟨rfl, -⟩ := hx.unique hnextRun
      have hall : ClusterReadable d v s.cluster := fun j hj => hreads j (Nat.zero_le j) hj
      cases next with
      | none =>
        obtain rfl : x = _ := hshape
        exact .last hmore.2 hall hfollows hlt hwritten
      | some k =>
        obtain ⟨b, rfl⟩ : ∃ b, x = _ := hshape
        exact .next hmore.2 hall hfollows hlt hwritten
  · rw [if_neg hmore] at h
    obtain ⟨rfl, -⟩ := h.of_pure
    exact .stop hmore

/-- A file that has been read without an error has been read as far as its clusters go. -/
theorem contentsLoop_halts (hbps : v.bytesPerSector = 512)
    (h : Prog.Halts (.loop (contentsRound d.toDisk v dataLen noFat) s) w y w')
    (hs : s.copied.written ≤ dataLen) :
    ReadResult dataLen (fun m => ∃ n, ClustersStop d v noFat s.cluster s.guard n ∧
      m = s.copied.written + n) y := by
  apply h.loop_rec (fun s _ y _ => s.copied.written ≤ dataLen →
    ReadResult dataLen (fun m => ∃ n, ClustersStop d v noFat s.cluster s.guard n ∧
      m = s.copied.written + n) y) ?_ ?_ hs
  · intro s w y w' hround hs
    cases contentsRound_step hbps hs hround with
    | stop hstop =>
      cases Nat.eq_or_lt_of_le hs with
      | inl heq => exact .whole heq
      | inr hlt => exact .short hlt ⟨0, .outside fun h => hstop ⟨hlt, h⟩, rfl⟩
    | fail hret => exact .fail hret
    | full hfull => exact .whole hfull
    | last hcluster hreads hnext hlt hc => exact .short hlt ⟨_, .last hcluster hreads hnext, hc⟩
  · intro s w s' w₁ y w' hround ih hs
    cases contentsRound_step hbps hs hround with
    | next hcluster hreads hnext hlt hc =>
      cases ih (Nat.le_of_lt hlt) with
      | fail hret => exact .fail hret
      | whole hc => exact .whole hc
      | short hlt' hshort =>
        obtain ⟨n, hstops, hwritten⟩ := hshort
        refine .short hlt' ⟨_, .next hcluster hreads hnext hstops, ?_⟩
        dsimp only at hwritten
        rw [hwritten, hc, Nat.add_assoc]

theorem ClustersStop.yields (h : ClustersStop d v noFat cluster passed n) (c : Copied) (b : Buf)
    (hroom : c.written + n < dataLen) :
    Prog.Yields (.loop (contentsRound d.toDisk v dataLen noFat) ⟨cluster, passed, c, b⟩)
      fun y => y.1 = .noError ∧ y.2.written = c.written + n := by
  induction h generalizing c b with
  | outside hout =>
    apply Prog.Yields.loop_unfold
    rw [contentsRound, if_neg fun h => hout h.2]
    exact Prog.Yields.pure ⟨rfl, rfl⟩
  | @last cluster passed hcluster hreads hnext =>
    apply Prog.Yields.loop_unfold
    rw [contentsRound, if_pos ⟨by dsimp only; omega, hcluster⟩]
    apply Prog.Yields.bind (pieces_yields (dataRound_piece d v cluster dataLen) hreads (0, c, b) rfl
      hroom)
    rintro ⟨ret, c', b'⟩ ⟨hret, hwritten⟩
    dsimp only at hret hwritten ⊢
    obtain rfl := hret
    rw [← Volume.clusterBytes] at hwritten
    apply (contentsNext_yields (s := ⟨cluster, passed, c, b⟩) hnext (hwritten ▸ hroom) b').mono
    rintro x rfl
    exact ⟨rfl, hwritten⟩
  | @next cluster passed k n hcluster hreads hnext hrest ih =>
    have hroom' : c.written + v.clusterBytes < dataLen := by omega
    apply Prog.Yields.loop_unfold
    rw [contentsRound, if_pos ⟨by dsimp only; omega, hcluster⟩]
    apply Prog.Yields.bind (pieces_yields (dataRound_piece d v cluster dataLen) hreads (0, c, b) rfl
      hroom')
    rintro ⟨ret, c', b'⟩ ⟨hret, hwritten⟩
    dsimp only at hret hwritten ⊢
    obtain rfl := hret
    rw [← Volume.clusterBytes] at hwritten
    apply (contentsNext_yields (s := ⟨cluster, passed, c, b⟩) hnext (hwritten ▸ hroom') b').mono
    rintro x ⟨b'', rfl⟩
    apply (ih c' b'' (by omega)).mono
    rintro y ⟨hok, hy⟩
    exact ⟨hok, by rw [hy, hwritten, Nat.add_assoc]⟩

theorem dataLoop_onto (out : Buf)
    (h : Prog.Halts (.loop (dataRound d.toDisk v cluster dataLen) s) w y w') :
    Prog.Halts (.loop (dataRound d.toDisk v cluster dataLen) (s.1, s.2.1.onto out, s.2.2)) w
      (y.1, y.2.1.onto out, y.2.2) w' := by
  apply Prog.Halts.loop_map (fun s : Nat × Copied × Buf => (s.1, s.2.1.onto out, s.2.2))
    (fun y : Retcode × Copied × Buf => (y.1, y.2.1.onto out, y.2.2)) ?_ h
  intro s w y w' hround
  rw [dataRound] at hround ⊢
  by_cases hmore : s.1 < v.sectorsPerCluster ∧ s.2.1.written < dataLen
  · rw [if_pos hmore] at hround
    rw [if_pos (show s.1 < v.sectorsPerCluster ∧ (s.2.1.onto out).written < dataLen from hmore)]
    obtain ⟨⟨ret, b⟩, w₁, hread, hrest⟩ := hround.of_bind
    obtain ⟨rfl, rfl⟩ := hrest.of_pure
    apply hread.bind
    dsimp only
    by_cases hret : ret = .noError
    · rw [if_neg (not_not.2 hret), if_neg (not_not.2 hret), ← Copied.onto_append]
      exact .pure _ _
    · rw [if_pos hret, if_pos hret]
      exact .pure _ _
  · rw [if_neg hmore] at hround
    rw [if_neg (show ¬ (s.1 < v.sectorsPerCluster ∧ (s.2.1.onto out).written < dataLen) from hmore)]
    obtain ⟨rfl, rfl⟩ := hround.of_pure
    exact .pure _ _

/-- The contents that a round leaves in another buffer. -/
def Contents.onto (out : Buf) (s : Contents) : Contents := { s with copied := s.copied.onto out }

theorem contentsNext_onto (out : Buf)
    (h : Prog.Halts (contentsNext d.toDisk v dataLen noFat s ret c b) w y w') :
    Prog.Halts (contentsNext d.toDisk v dataLen noFat (s.onto out) ret (c.onto out) b) w
      (y.map (Contents.onto out) fun y => (y.1, y.2.onto out)) w' := by
  rw [contentsNext] at h ⊢
  by_cases hret : ret = .noError
  · rw [if_neg (not_not.2 hret)] at h ⊢
    by_cases hfull : dataLen ≤ c.written
    · rw [if_pos hfull] at h
      rw [if_pos (show dataLen ≤ (c.onto out).written from hfull)]
      obtain ⟨rfl, rfl⟩ := h.of_pure
      exact .pure _ _
    · rw [if_neg hfull] at h
      rw [if_neg (show ¬ dataLen ≤ (c.onto out).written from hfull)]
      cases noFat with
      | true =>
        rw [if_pos rfl] at h ⊢
        obtain ⟨rfl, rfl⟩ := h.of_pure
        exact .pure _ _
      | false =>
        rw [if_neg Bool.false_ne_true] at h ⊢
        obtain ⟨⟨k, b'⟩, w₁, hnext, hrest⟩ := h.of_bind
        obtain ⟨rfl, rfl⟩ := hrest.of_pure
        apply hnext.bind
        dsimp only
        by_cases hend : k = endOfChain
        · rw [if_pos hend, if_pos hend]
          exact .pure _ _
        · rw [if_neg hend, if_neg hend]
          exact .pure _ _
  · rw [if_pos hret] at h ⊢
    obtain ⟨rfl, rfl⟩ := h.of_pure
    exact .pure _ _

/-- What is read into a buffer is read into any other one, at the same place. -/
theorem exfatReadContents_onto (out : Buf)
    (h : Prog.Halts (exfatReadContents d.toDisk v first dataLen noFat buf b) w (ret, c) w') :
    Prog.Halts (exfatReadContents d.toDisk v first dataLen noFat out b) w (ret, c.onto out) w' := by
  have hstart : (⟨first, 0, ⟨0, out⟩, b⟩ : Contents) = .onto out ⟨first, 0, ⟨0, buf⟩, b⟩ := by
    rw [Contents.onto, Copied.onto_start]
  rw [exfatReadContents, hstart]
  apply Prog.Halts.loop_map (Contents.onto out)
    (fun y : Retcode × Copied => (y.1, y.2.onto out)) ?_ h
  intro s w y w' hround
  rw [contentsRound] at hround ⊢
  by_cases hmore : s.copied.written < dataLen ∧ v.HasCluster s.cluster ∧ s.guard < 100000
  · rw [if_pos hmore] at hround
    rw [if_pos (show (s.onto out).copied.written < dataLen ∧ v.HasCluster (s.onto out).cluster ∧
      (s.onto out).guard < 100000 from hmore)]
    obtain ⟨⟨ret, c, b⟩, w₁, hdata, hnext⟩ := hround.of_bind
    exact (dataLoop_onto out hdata).bind (contentsNext_onto out hnext)
  · rw [if_neg hmore] at hround
    rw [if_neg (show ¬ ((s.onto out).copied.written < dataLen ∧ v.HasCluster (s.onto out).cluster ∧
      (s.onto out).guard < 100000) from hmore)]
    obtain ⟨rfl, rfl⟩ := hround.of_pure
    exact .pure _ _

/-- A file is read in full, or with an error, unless its clusters are too few. -/
theorem exfatReadContents_reads (d : Drive) (hbps : v.bytesPerSector = 512) (noFat : Bool)
    (first dataLen : Nat) (b : Buf) :
    Reads (exfatReadContents d.toDisk v first dataLen noFat · b) dataLen
      (ClustersShort d v noFat first dataLen) where
  result out w y w' hrun := by
    cases contentsLoop_halts hbps hrun (Nat.zero_le _) with
    | fail hret => exact .fail hret
    | whole hc => exact .whole hc
    | short hlt hshort =>
      obtain ⟨n, hstops, hwritten⟩ := hshort
      rw [Nat.zero_add] at hwritten
      exact .short hlt ⟨n, hwritten ▸ hlt, hstops⟩
  shortened := by
    rintro ⟨n, hlt, hstops⟩ out w
    have hroom : (Copied.mk 0 out).written + n < dataLen := (Nat.zero_add n).symm ▸ hlt
    obtain ⟨⟨ret, c⟩, w', hrun, rfl, hwritten⟩ := hstops.yields ⟨0, out⟩ b hroom w
    exact ⟨c, w', hrun, hwritten ▸ hroom⟩
  onto _ out _ _ _ _ hrun := exfatReadContents_onto out hrun

end

end Exfat

end Pegasos2.Fs
