import Pegasos2.AmigaPfs3
import Pegasos2.AmigaRdb
import Pegasos2.AmigaSfs
import Pegasos2.FfsOpen

namespace Pegasos2.Fs
open Program
open Ffs (Readable)
set_option autoImplicit true

/-- The same bytes, written into another buffer. -/
def Copied.onto (out : Buf) (c : Copied) : Copied := ⟨c.written, out.copy 0 c.out 0 c.written⟩

theorem Copied.onto_start (out b : Buf) : Copied.onto out ⟨0, b⟩ = ⟨0, out⟩ := by
  rw [onto, Copied.mk.injEq]
  refine ⟨rfl, ?_⟩
  funext i
  exact Buf.copy_above out b (Nat.zero_le i)

theorem Copied.onto_append (out : Buf) (c : Copied) (byteSize size : Nat) (dblk : Buf) :
    (c.append byteSize size dblk).onto out = (c.onto out).append byteSize size dblk := by
  rw [onto, append, append, onto, Copied.mk.injEq]
  refine ⟨rfl, ?_⟩
  funext i
  simp only [Buf.copy, Nat.zero_le, true_and, Nat.zero_add, Nat.sub_zero]
  split_ifs <;> first | rfl | omega

theorem Copied.append_le {c : Copied} (h : c.written ≤ byteSize) (size : Nat) (dblk : Buf) :
    (c.append byteSize size dblk).written ≤ byteSize := by
  rw [append]
  dsimp only
  omega

theorem Copied.append_of_lt {c : Copied} (h : (c.append byteSize size dblk).written < byteSize) :
    (c.append byteSize size dblk).written = c.written + size := by
  rw [append] at h ⊢
  dsimp only at h ⊢
  omega

theorem Copied.append_written {c : Copied} (h : c.written + size ≤ byteSize) (dblk : Buf) :
    (c.append byteSize size dblk).written = c.written + size := by
  rw [append]
  dsimp only
  omega

/-- An error of a reader. -/
def IsError (ret : Retcode) : Prop := ret ≠ .noError ∧ ret ≠ .rEnd

theorem isError_eReadError : IsError .eReadError := ⟨Retcode.noConfusion, Retcode.noConfusion⟩

theorem isError_eNoFile : IsError .eNoFile := ⟨Retcode.noConfusion, Retcode.noConfusion⟩

theorem Fault.isError (fault : Fault) : IsError fault.code := ⟨fault.code_ne.1, fault.code_ne.2.1⟩

/-- The result of the read of a file of `size` bytes: an error, the whole file, or less, which
`short` is about. -/
inductive ReadResult (size : Nat) (short : Nat → Prop) : Retcode × Copied → Prop where
  | fail (hret : IsError ret) : ReadResult size short (ret, c)
  | whole (hc : c.written = size) : ReadResult size short (.noError, c)
  | short (hlt : c.written < size) (hshort : short c.written) : ReadResult size short (.noError, c)

/-- The read of a file of `size` bytes into a buffer. The blocks of the file end too early if
`short` holds. -/
structure Reads (read : Buf → Io (Retcode × Copied)) (size : Nat) (short : Prop) : Prop where
  result : ∀ out w y w', Prog.Halts (read out) w y w' → ReadResult size (fun _ => short) y
  shortened : short → ∀ out w, ∃ c w', Prog.Halts (read out) w (.noError, c) w' ∧ c.written < size
  onto : ∀ b out w ret c w', Prog.Halts (read b) w (ret, c) w' →
    Prog.Halts (read out) w (ret, c.onto out) w'

theorem filesysReadBytes_outcome (d : Drive) (loc size : Nat) (buf : Buf) :
    Prog.Yields (filesysReadBytes d.toDisk loc size buf)
      (· = match d.read 0 loc size with
        | .ok data => (.noError, buf.copy 0 data 0 size)
        | .fail fault left => (fault.code, left)) := by
  intro w
  obtain ⟨data, hread, hrun⟩ | ⟨fault, left, hread, hrun⟩ :=
    filesysReadBytes_halts d.toDisk loc size buf w
  · rw [(d.steady 0 w.reads loc size).trans hread]
    exact ⟨_, _, hrun, rfl⟩
  · rw [(d.steady 0 w.reads loc size).trans hread]
    exact ⟨_, _, hrun, rfl⟩

theorem readBlockSz_reads (d : Drive) (loc size n : Nat) (buf : Buf) :
    Prog.Yields (Ffs.readBlockSz d.toDisk loc n size buf) fun x =>
      x.1 = .noError ∧ Readable d loc size n ∨ IsError x.1 ∧ ¬ Readable d loc size n := by
  apply (filesysReadBytes_outcome d (u64 (loc + n * size)) size buf).mono
  rintro _ rfl
  rw [Readable]
  cases d.read 0 (u64 (loc + n * size)) size with
  | ok data => exact .inl ⟨rfl, data, rfl⟩
  | fail fault left =>
    refine .inr ⟨fault.isError, ?_⟩
    rintro ⟨data, hok⟩
    cases hok

theorem readBlock_error (d : Drive) (partLoc n : Nat) (buf : Buf) :
    Prog.Yields (readBlock d.toDisk partLoc n buf) fun x => x.1 ≠ .noError → IsError x.1 := by
  apply (readBlockSz_reads d partLoc bsize n buf).mono
  rintro x (⟨hok, -⟩ | ⟨herror, -⟩) hret
  · exact absurd hok hret
  · exact herror

theorem readBlock_steady (d : Drive) (partLoc n : Nat) (buf : Buf) :
    Prog.Steady (readBlock d.toDisk partLoc n buf) := ⟨_, filesysReadBytes_outcome d _ _ buf⟩

section

variable (ok : Nat → Prop) (count byteSize size : Nat) (pos : α → Nat) (copied : α → Copied)
  (result : β → Retcode × Copied)

/-- What a round of a loop over `count` pieces of `size` bytes can do. Piece `j` can be read if
`ok j`. -/
inductive PieceRound (s : α) : α ⊕ β → Prop where
  | next (hi : pos s < count) (hok : ok (pos s)) (hpos : pos s' = pos s + 1)
      (hcopied : copied s' = (copied s).append byteSize size b) : PieceRound s (.inl s')
  | fail (hi : pos s < count) (hno : ¬ ok (pos s)) (hret : IsError (result y).1) :
    PieceRound s (.inr y)
  | done (h : ¬ (pos s < count ∧ (copied s).written < byteSize))
      (hy : result y = (.noError, copied s)) : PieceRound s (.inr y)

variable {ok count byteSize size pos copied result} {body : α → Io (α ⊕ β)}

/-- Pieces that have been read without an error have all been read, unless the file is complete. -/
theorem pieces_halts
    (hbody : ∀ s, Prog.Yields (body s) (PieceRound ok count byteSize size pos copied result s))
    (h : Prog.Halts (.loop body s) w y w') (hi : pos s ≤ count)
    (hs : (copied s).written ≤ byteSize) :
    ReadResult byteSize (fun m => (∀ j, pos s ≤ j → j < count → ok j) ∧
      m = (copied s).written + (count - pos s) * size) (result y) := by
  apply h.loop_rec (fun s _ y _ => pos s ≤ count → (copied s).written ≤ byteSize →
    ReadResult byteSize (fun m => (∀ j, pos s ≤ j → j < count → ok j) ∧
      m = (copied s).written + (count - pos s) * size) (result y)) ?_ ?_ hi hs
  · intro s w y w' hround hi hs
    obtain ⟨x, w₁, hx, hpiece⟩ := hbody s w
    obtain ⟨rfl, -⟩ := hx.unique hround
    cases hpiece with
    | fail _ _ hret => exact .fail hret
    | done hdone hy =>
      rw [hy]
      cases Nat.eq_or_lt_of_le hs with
      | inl heq => exact .whole heq
      | inr hlt =>
        have hend : pos s = count := Nat.le_antisymm hi (Nat.not_lt.1 fun h => hdone ⟨h, hlt⟩)
        refine .short hlt ⟨fun j hj hjlt => absurd (hend ▸ hj) (Nat.not_le.2 hjlt), ?_⟩
        rw [hend, Nat.sub_self, Nat.zero_mul, Nat.add_zero]
  · intro s w s' w₁ y w' hround ih hi hs
    obtain ⟨x, w₂, hx, hpiece⟩ := hbody s w
    obtain ⟨rfl, -⟩ := hx.unique hround
    cases hpiece with
    | @next _ b hlt hok hpos hcopied =>
      rw [hpos, hcopied] at ih
      generalize hz : result y = z at ih ⊢
      cases ih hlt (Copied.append_le hs size b) with
      | fail hret => exact .fail hret
      | whole hc => exact .whole hc
      | short hshort hrest =>
        obtain ⟨hall, hwritten⟩ := hrest
        refine .short hshort ⟨?_, ?_⟩
        · intro j hj hjlt
          cases Nat.eq_or_lt_of_le hj with
          | inl heq => exact heq ▸ hok
          | inr hjpos => exact hall j hjpos hjlt
        · have happend : ((copied s).append byteSize size b).written < byteSize :=
            Nat.lt_of_le_of_lt (hwritten ▸ Nat.le_add_right _ _) hshort
          have hsub : count - pos s = count - (pos s + 1) + 1 := by omega
          rw [hwritten, Copied.append_of_lt happend, hsub, Nat.succ_mul]
          omega

/-- Pieces that can all be read are read, if the file goes on behind them. -/
theorem pieces_yields
    (hbody : ∀ s, Prog.Yields (body s) (PieceRound ok count byteSize size pos copied result s))
    (hall : ∀ j < count, ok j) (s : α) (hi : pos s = 0)
    (hroom : (copied s).written + count * size < byteSize) :
    Prog.Yields (.loop body s) fun y => (result y).1 = .noError ∧
      (result y).2.written = (copied s).written + count * size := by
  apply Prog.Yields.loop
    (fun t => pos t ≤ count ∧ (copied t).written = (copied s).written + pos t * size)
    (fun t => count - pos t)
  · rintro t ⟨ht, hwritten⟩
    have hle : pos t * size ≤ count * size := Nat.mul_le_mul_right size ht
    apply (hbody t).mono
    intro x hpiece
    cases hpiece with
    | @next _ b hlt hok hpos hcopied =>
      have hle' : (pos t + 1) * size ≤ count * size := Nat.mul_le_mul_right size hlt
      rw [Nat.succ_mul] at hle'
      refine ⟨⟨hpos ▸ hlt, ?_⟩, ?_⟩
      · rw [hcopied, hpos, Copied.append_written (by omega), hwritten, Nat.succ_mul, Nat.add_assoc]
      · dsimp only
        rw [hpos]
        exact Nat.sub_succ_lt_self _ _ hlt
    | fail hlt hno => exact absurd (hall _ hlt) hno
    | done hdone hy =>
      have hend : pos t = count :=
        Nat.le_antisymm ht (Nat.not_lt.1 fun h => hdone ⟨h, by omega⟩)
      show (result _).1 = _ ∧ (result _).2.written = _
      rw [hy, hwritten, hend]
      exact ⟨rfl, rfl⟩
  · exact ⟨hi ▸ Nat.zero_le count, by rw [hi, Nat.zero_mul, Nat.add_zero]⟩

end

section

variable {d : Drive} {stack : Buf} {partLoc byteSize : Nat}

theorem extentRound_piece (d : Drive) (stack : Buf) (partLoc byteSize : Nat) (x : Extent)
    (s : Nat × Copied) :
    Prog.Yields (extentRound d.toDisk stack partLoc byteSize x s)
      (PieceRound (fun j => Readable d partLoc bsize (u32 (x.first + j))) x.blocks byteSize bsize
        Prod.fst Prod.snd (fun y : Retcode × Copied => y) s) := by
  rw [extentRound]
  by_cases hmore : s.1 < x.blocks ∧ s.2.written < byteSize
  · rw [if_pos hmore]
    apply Prog.Yields.bind (readBlockSz_reads d partLoc bsize _ stack)
    rintro ⟨ret, dblk⟩ (⟨hret, hok⟩ | ⟨hret, hno⟩)
    · apply Prog.Yields.pure
      rw [if_neg (not_not.2 hret)]
      exact .next hmore.1 hok rfl rfl
    · apply Prog.Yields.pure
      rw [if_pos hret.1]
      exact .fail hmore.1 hno hret
  · rw [if_neg hmore]
    exact Prog.Yields.pure (.done hmore rfl)

/-- The chain of extents from `key` on comes to its end after `n` bytes, all of which can be read.
`passed` is how many extents are before it. -/
inductive ChainStops (d : Drive) (partLoc : Nat) (lookup : Nat → Io (Except Retcode Extent)) :
    Nat → Nat → Nat → Prop where
  | noKey : ChainStops d partLoc lookup 0 passed 0
  | empty (hkey : key ≠ 0) (hpassed : passed < 65536)
      (hx : Prog.Yields (lookup key) (· = .ok x)) (hempty : x.blocks = 0) :
    ChainStops d partLoc lookup key passed 0
  | extent (hkey : key ≠ 0) (hpassed : passed < 65536)
      (hx : Prog.Yields (lookup key) (· = .ok x)) (hblocks : x.blocks ≠ 0)
      (hreads : ∀ j < x.blocks, Readable d partLoc bsize (u32 (x.first + j)))
      (hrest : ChainStops d partLoc lookup x.next (passed + 1) n) :
    ChainStops d partLoc lookup key passed (x.blocks * bsize + n)

variable {lookup : Nat → Io (Except Retcode Extent)}

theorem ChainStops.yields (h : ChainStops d partLoc lookup key passed n) (stack : Buf) (c : Copied)
    (hroom : c.written + n < byteSize) :
    Prog.Yields (.loop (chainRound d.toDisk stack partLoc byteSize lookup) ⟨key, passed, c⟩)
      fun y => y.1 = .noError ∧ y.2.written = c.written + n := by
  induction h generalizing c with
  | noKey =>
    apply Prog.Yields.loop_unfold
    rw [chainRound, if_neg fun h => h.2 rfl]
    exact Prog.Yields.pure ⟨rfl, rfl⟩
  | empty hkey hpassed hx hempty =>
    apply Prog.Yields.loop_unfold
    rw [chainRound, if_pos ⟨hroom, hkey⟩, if_neg (Nat.not_lt.2 hpassed)]
    apply Prog.Yields.bind hx
    rintro _ rfl
    rw [chainNext, if_pos hempty]
    exact Prog.Yields.pure ⟨rfl, rfl⟩
  | @extent key passed x n hkey hpassed hx hblocks hreads hrest ih =>
    apply Prog.Yields.loop_unfold
    rw [chainRound, if_pos ⟨by dsimp only; omega, hkey⟩, if_neg (Nat.not_lt.2 hpassed)]
    apply Prog.Yields.bind hx
    rintro _ rfl
    rw [chainNext, if_neg hblocks]
    apply Prog.Yields.bind (pieces_yields (extentRound_piece d stack partLoc byteSize x) hreads
      (0, c) rfl (by dsimp only; omega))
    rintro ⟨ret, c'⟩ ⟨hret, hwritten⟩
    apply Prog.Yields.pure
    dsimp only at hret hwritten ⊢
    rw [if_neg (not_not.2 hret)]
    apply (ih c' (by omega)).mono
    rintro y ⟨hok, hy⟩
    exact ⟨hok, by rw [hy, hwritten, Nat.add_assoc]⟩

/-- What a round of the chain can do. -/
inductive ChainStep (d : Drive) (partLoc byteSize : Nat)
    (lookup : Nat → Io (Except Retcode Extent)) (s : Chain) :
    Chain ⊕ (Retcode × Copied) → Prop where
  | stop (h : ¬ (s.copied.written < byteSize ∧ s.key ≠ 0)) :
    ChainStep d partLoc byteSize lookup s (.inr (.noError, s.copied))
  | empty (hkey : s.key ≠ 0) (hpassed : s.guard < 65536)
      (hx : Prog.Yields (lookup s.key) (· = .ok x)) (hempty : x.blocks = 0) :
    ChainStep d partLoc byteSize lookup s (.inr (.noError, s.copied))
  | fail (hret : IsError ret) : ChainStep d partLoc byteSize lookup s (.inr (ret, c))
  | extent (hkey : s.key ≠ 0) (hpassed : s.guard < 65536)
      (hx : Prog.Yields (lookup s.key) (· = .ok x)) (hblocks : x.blocks ≠ 0)
      (hread : c.written = byteSize ∨ c.written < byteSize ∧
        (∀ j < x.blocks, Readable d partLoc bsize (u32 (x.first + j))) ∧
          c.written = s.copied.written + x.blocks * bsize) :
    ChainStep d partLoc byteSize lookup s (.inl ⟨x.next, s.guard + 1, c⟩)

/-- An error of the lookup of an extent is one of the reader. -/
def Fails (lookup : Nat → Io (Except Retcode Extent)) : Prop :=
  ∀ key, Prog.Yields (lookup key) fun x => ∀ ret, x = .error ret → IsError ret

theorem isError_error {α : Type} (h : IsError ret) :
    ∀ ret', (.error ret : Except Retcode α) = .error ret' → IsError ret' := by
  rintro _ ⟨⟩
  exact h

theorem chainRound_step (hsteady : ∀ key, Prog.Steady (lookup key)) (hfails : Fails lookup)
    (hs : s.copied.written ≤ byteSize)
    (h : Prog.Halts (chainRound d.toDisk stack partLoc byteSize lookup s) w y w') :
    ChainStep d partLoc byteSize lookup s y := by
  rw [chainRound] at h
  by_cases hmore : s.copied.written < byteSize ∧ s.key ≠ 0
  · rw [if_pos hmore] at h
    by_cases hpassed : 65536 < s.guard + 1
    · rw [if_pos hpassed] at h
      obtain ⟨rfl, -⟩ := h.of_pure
      exact .fail isError_eReadError
    · rw [if_neg hpassed] at h
      obtain ⟨x, w₁, hx, hrest⟩ := h.of_bind
      have hyields := (hsteady s.key).yields hx
      have hpassed : s.guard < 65536 := Nat.not_lt.1 hpassed
      cases x with
      | error ret =>
        obtain ⟨x', w₂, hx', hret⟩ := hfails s.key w
        obtain ⟨rfl, -⟩ := hx'.unique hx
        obtain ⟨rfl, -⟩ := hrest.of_pure
        exact .fail (hret ret rfl)
      | ok x =>
        rw [chainNext] at hrest
        by_cases hblocks : x.blocks = 0
        · rw [if_pos hblocks] at hrest
          obtain ⟨rfl, -⟩ := hrest.of_pure
          exact .empty hmore.2 hpassed hyields hblocks
        · rw [if_neg hblocks] at hrest
          obtain ⟨⟨ret, c⟩, w₂, hextent, hnext⟩ := hrest.of_bind
          obtain ⟨rfl, -⟩ := hnext.of_pure
          cases pieces_halts (extentRound_piece d stack partLoc byteSize x) hextent
            (Nat.zero_le _) hs with
          | fail hret =>
            rw [if_pos hret.1]
            exact .fail hret
          | whole hc =>
            rw [if_neg (not_not.2 rfl)]
            exact .extent hmore.2 hpassed hyields hblocks (.inl hc)
          | short hlt hread =>
            rw [if_neg (not_not.2 rfl)]
            apply ChainStep.extent hmore.2 hpassed hyields hblocks
            exact .inr ⟨hlt, fun j hj => hread.1 j (Nat.zero_le j) hj, hread.2⟩
  · rw [if_neg hmore] at h
    obtain ⟨rfl, -⟩ := h.of_pure
    exact .stop hmore

/-- A file that has been read without an error has been read as far as its chain goes. -/
theorem chainLoop_halts (hsteady : ∀ key, Prog.Steady (lookup key)) (hfails : Fails lookup)
    (h : Prog.Halts (.loop (chainRound d.toDisk stack partLoc byteSize lookup) s) w y w')
    (hs : s.copied.written ≤ byteSize) :
    ReadResult byteSize (fun m => ∃ n, ChainStops d partLoc lookup s.key s.guard n ∧
      m = s.copied.written + n) y := by
  apply h.loop_rec (fun s _ y _ => s.copied.written ≤ byteSize →
    ReadResult byteSize (fun m => ∃ n, ChainStops d partLoc lookup s.key s.guard n ∧
      m = s.copied.written + n) y) ?_ ?_ hs
  · intro s w y w' hround hs
    cases chainRound_step hsteady hfails hs hround with
    | stop hstop =>
      cases Nat.eq_or_lt_of_le hs with
      | inl heq => exact .whole heq
      | inr hlt =>
        have hkey : s.key = 0 := not_not.1 fun hne => hstop ⟨hlt, hne⟩
        refine .short hlt ⟨0, ?_, rfl⟩
        rw [hkey]
        exact .noKey
    | empty hkey hpassed hx hempty =>
      cases Nat.eq_or_lt_of_le hs with
      | inl heq => exact .whole heq
      | inr hlt => exact .short hlt ⟨0, .empty hkey hpassed hx hempty, rfl⟩
    | fail hret => exact .fail hret
  · intro s w s' w₁ y w' hround ih hs
    cases chainRound_step hsteady hfails hs hround with
    | extent hkey hpassed hx hblocks hread =>
      have hle := hread.elim Nat.le_of_eq fun h => Nat.le_of_lt h.1
      cases ih hle with
      | fail hret => exact .fail hret
      | whole hc => exact .whole hc
      | short hlt hshort =>
        obtain ⟨n, hstops, hwritten⟩ := hshort
        dsimp only at hwritten
        cases hread with
        | inl heq => omega
        | inr hall =>
          obtain ⟨-, hreads, heq⟩ := hall
          refine .short hlt ⟨_, .extent hkey hpassed hx hblocks hreads hstops, ?_⟩
          rw [hwritten, heq, Nat.add_assoc]

/-- The chain of a file ends before its size has been reached. -/
def ChainShort (d : Drive) (partLoc : Nat) (lookup : Nat → Io (Except Retcode Extent))
    (first byteSize : Nat) : Prop :=
  ∃ n < byteSize, ChainStops d partLoc lookup first 0 n

theorem readExtent_onto {x : Extent} (out : Buf)
    (h : Prog.Halts (readExtent d.toDisk stack partLoc byteSize x c) w y w') :
    Prog.Halts (readExtent d.toDisk stack partLoc byteSize x (c.onto out)) w (y.1, y.2.onto out)
      w' := by
  apply Prog.Halts.loop_map (fun s : Nat × Copied => (s.1, s.2.onto out))
    (fun y : Retcode × Copied => (y.1, y.2.onto out)) ?_ h
  intro s w y w' hround
  rw [extentRound] at hround ⊢
  by_cases hmore : s.1 < x.blocks ∧ s.2.written < byteSize
  · rw [if_pos hmore] at hround
    rw [if_pos (show s.1 < x.blocks ∧ (s.2.onto out).written < byteSize from hmore)]
    obtain ⟨⟨ret, dblk⟩, w₁, hread, hrest⟩ := hround.of_bind
    obtain ⟨rfl, rfl⟩ := hrest.of_pure
    apply hread.bind
    dsimp only
    by_cases hret : ret = .noError
    · rw [if_neg (not_not.2 hret), if_neg (not_not.2 hret), ← Copied.onto_append]
      exact .pure _ _
    · rw [if_pos hret, if_pos hret]
      exact .pure _ _
  · rw [if_neg hmore] at hround
    rw [if_neg (show ¬ (s.1 < x.blocks ∧ (s.2.onto out).written < byteSize) from hmore)]
    obtain ⟨rfl, rfl⟩ := hround.of_pure
    exact .pure _ _

/-- What is read into a buffer is read into any other one, at the same place. -/
theorem readFile_onto (out : Buf)
    (h : Prog.Halts (readFile d.toDisk stack partLoc lookup first byteSize b) w (ret, c) w') :
    Prog.Halts (readFile d.toDisk stack partLoc lookup first byteSize out) w (ret, c.onto out)
      w' := by
  have hstart : (⟨first, 0, 0, out⟩ : Chain) = ⟨first, 0, Copied.onto out ⟨0, b⟩⟩ := by
    rw [Copied.onto_start]
  rw [readFile, hstart]
  apply Prog.Halts.loop_map (fun s : Chain => (⟨s.key, s.guard, s.copied.onto out⟩ : Chain))
    (fun y : Retcode × Copied => (y.1, y.2.onto out)) ?_ h
  · intro s w y w' hround
    rw [chainRound] at hround ⊢
    by_cases hmore : s.copied.written < byteSize ∧ s.key ≠ 0
    · rw [if_pos hmore] at hround
      rw [if_pos (show (s.copied.onto out).written < byteSize ∧ s.key ≠ 0 from hmore)]
      by_cases hpassed : 65536 < s.guard + 1
      · rw [if_pos hpassed] at hround ⊢
        obtain ⟨rfl, rfl⟩ := hround.of_pure
        exact .pure _ _
      · rw [if_neg hpassed] at hround ⊢
        obtain ⟨x, w₁, hx, hrest⟩ := hround.of_bind
        apply hx.bind
        cases x with
        | error ret =>
          obtain ⟨rfl, rfl⟩ := hrest.of_pure
          exact .pure _ _
        | ok x =>
          rw [chainNext] at hrest ⊢
          by_cases hblocks : x.blocks = 0
          · rw [if_pos hblocks] at hrest ⊢
            obtain ⟨rfl, rfl⟩ := hrest.of_pure
            exact .pure _ _
          · rw [if_neg hblocks] at hrest ⊢
            obtain ⟨⟨ret, c⟩, w₂, hextent, hnext⟩ := hrest.of_bind
            obtain ⟨rfl, rfl⟩ := hnext.of_pure
            apply (readExtent_onto out hextent).bind
            dsimp only
            by_cases hret : ret = .noError
            · rw [if_neg (not_not.2 hret), if_neg (not_not.2 hret)]
              exact .pure _ _
            · rw [if_pos hret, if_pos hret]
              exact .pure _ _
    · rw [if_neg hmore] at hround
      rw [if_neg (show ¬ ((s.copied.onto out).written < byteSize ∧ s.key ≠ 0) from hmore)]
      obtain ⟨rfl, rfl⟩ := hround.of_pure
      exact .pure _ _

/-- A file is read in full, or with an error, unless its chain is too short. -/
theorem readFile_reads (stack : Buf) (hsteady : ∀ key, Prog.Steady (lookup key))
    (hfails : Fails lookup) (first byteSize : Nat) :
    Reads (readFile d.toDisk stack partLoc lookup first byteSize) byteSize
      (ChainShort d partLoc lookup first byteSize) where
  result out w y w' hrun := by
    cases chainLoop_halts hsteady hfails hrun (Nat.zero_le _) with
    | fail hret => exact .fail hret
    | whole hc => exact .whole hc
    | short hlt hshort =>
      obtain ⟨n, hstops, hwritten⟩ := hshort
      rw [Nat.zero_add] at hwritten
      exact .short hlt ⟨n, hwritten ▸ hlt, hstops⟩
  shortened := by
    rintro ⟨n, hlt, hstops⟩ out w
    have hroom : (Copied.mk 0 out).written + n < byteSize := (Nat.zero_add n).symm ▸ hlt
    obtain ⟨⟨ret, c⟩, w', hrun, rfl, hwritten⟩ := hstops.yields stack ⟨0, out⟩ hroom w
    exact ⟨c, w', hrun, hwritten ▸ hroom⟩
  onto _ out _ _ _ _ hrun := readFile_onto out hrun

end

namespace Sfs

theorem sfsLookupExtent_steady (d : Drive) (stack : Buf) (v : Volume) (key : Nat) :
    Prog.Steady (sfsLookupExtent d.toDisk stack v key) := by
  apply Prog.Steady.loop ?_ ((sfsLookupExtent_total d.toDisk stack v key).ends Rdb.boot)
  intro s
  rw [extentTreeRound]
  split_ifs
  · exact (readBlock_steady d v.partLoc s.1 stack).bind fun _ => .pure _
  · exact .pure _

theorem leaf_error (b : Buf) (key : Nat) (bn : Option Nat) :
    ∀ ret, leaf b key bn = .error ret → IsError ret := by
  cases bn with
  | none => exact isError_error isError_eNoFile
  | some bn =>
    intro ret heq
    cases heq

theorem sfsLookupExtent_fails (d : Drive) (stack : Buf) (v : Volume) :
    Fails (sfsLookupExtent d.toDisk stack v) := by
  intro key
  apply Prog.Yields.loop (fun _ => True) (fun s => 32 - s.2) ?_ trivial
  intro s _
  rw [extentTreeRound]
  split_ifs with h
  · apply Prog.Yields.bind (readBlock_error d v.partLoc s.1 stack)
    rintro ⟨ret, b⟩ herror
    apply Prog.Yields.pure
    rw [descend]
    split_ifs with hret
    · exact isError_error (herror hret)
    · exact leaf_error b key _
    · exact ⟨trivial, Nat.sub_succ_lt_self _ _ h.2⟩
    · exact isError_error isError_eNoFile
  · exact Prog.Yields.pure (isError_error isError_eNoFile)

end Sfs

namespace Pfs

theorem pfsGetAnode_steady (d : Drive) (stack : Buf) (v : Volume) (anodenr : Nat) :
    Prog.Steady (pfsGetAnode d.toDisk stack v anodenr) := by
  rw [pfsGetAnode]
  dsimp only
  split_ifs
  · exact .pure _
  · exact .pure _
  · exact .pure _
  · apply (readBlock_steady d v.partLoc _ stack).bind
    rintro ⟨ret, b⟩
    show Prog.Steady (indexed d.toDisk stack v _ _ ret b)
    rw [indexed]
    split_ifs
    · exact .pure _
    · exact .pure _
    · exact .pure _
    · exact (readBlock_steady d v.partLoc _ stack).bind fun _ => .pure _

theorem anodeIn_error (abOff : Nat) (b : Buf) (h : ret ≠ .noError → IsError ret) :
    ∀ ret', anodeIn abOff ret b = .error ret' → IsError ret' := by
  rw [anodeIn]
  split_ifs with hret
  · exact isError_error (h hret)
  · exact isError_error isError_eReadError
  · intro ret' heq
    cases heq

theorem pfsGetAnode_fails (d : Drive) (stack : Buf) (v : Volume) :
    Fails (pfsGetAnode d.toDisk stack v) := by
  intro anodenr
  rw [pfsGetAnode]
  dsimp only
  split_ifs
  · exact Prog.Yields.pure (isError_error isError_eReadError)
  · exact Prog.Yields.pure (isError_error isError_eReadError)
  · exact Prog.Yields.pure (isError_error isError_eReadError)
  · apply Prog.Yields.bind (readBlock_error d v.partLoc _ stack)
    rintro ⟨ret, b⟩ herror
    show Prog.Yields (indexed d.toDisk stack v _ _ ret b) _
    rw [indexed]
    split_ifs with hret
    · exact Prog.Yields.pure (isError_error (herror hret))
    · exact Prog.Yields.pure (isError_error isError_eReadError)
    · exact Prog.Yields.pure (isError_error isError_eReadError)
    · apply Prog.Yields.bind (readBlock_error d v.partLoc _ stack)
      rintro ⟨ret', b'⟩ herror'
      exact Prog.Yields.pure (anodeIn_error _ b' herror')

end Pfs

end Pegasos2.Fs
