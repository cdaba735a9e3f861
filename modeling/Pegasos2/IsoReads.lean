import Pegasos2.Iso9660

namespace Pegasos2.Fs
open Program
set_option autoImplicit true

namespace Iso

/-- The bytes `l` in a buffer, from `off` on. -/
def put (b : Buf) (off : Nat) (l : List UInt8) : Buf := fun i =>
  if off ≤ i ∧ i < off + l.length then l.getD (i - off) 0 else b i

theorem bytes_congr {b c : Buf} (h : ∀ i, i < n → b (p + i) = c (p + i)) :
    bytes b p n = bytes c p n :=
  List.map_congr_left fun i hi => h i (List.mem_range.1 hi)

theorem copy_eq_put (b src : Buf) (off n : Nat) :
    b.copy off src 0 n = put b off (bytes src 0 n) := by
  funext i
  rw [Buf.copy, put, length_bytes]
  by_cases hi : off ≤ i ∧ i < off + n
  · rw [if_pos hi, if_pos hi, getD_bytes src 0 (by omega)]
  · rw [if_neg hi, if_neg hi]

theorem put_append (b : Buf) (off : Nat) (l l' : List UInt8) :
    put (put b off l) (off + l.length) l' = put b off (l ++ l') := by
  funext i
  simp only [put, List.length_append]
  by_cases hlow : i < off + l.length
  · rw [if_neg (by omega)]
    by_cases hoff : off ≤ i
    · rw [if_pos ⟨hoff, hlow⟩, if_pos (by omega),
        List.getD_append _ _ _ _ (by omega)]
    · rw [if_neg (by omega), if_neg (by omega)]
  · by_cases hhigh : i < off + (l.length + l'.length)
    · rw [if_pos (by omega), if_pos (by omega),
        List.getD_append_right _ _ _ _ (by omega), Nat.sub_sub]
    · rw [if_neg (by omega), if_neg (by omega), if_neg (by omega)]

theorem put_injective (hlen : l.length = l'.length) (h : put b off l = put b off l') :
    l = l' := by
  apply List.ext_getElem hlen
  intro i hi hi'
  have heq := congrFun h (off + i)
  simp only [put] at heq
  rw [if_pos (by omega), if_pos (by omega), Nat.add_sub_cancel_left,
    List.getD_eq_getElem _ _ hi, List.getD_eq_getElem _ _ hi'] at heq
  exact heq

/-- A disk that answers a read in the same way whenever it is made. -/
def steady (m : Nat → Nat → Outcome) : Disk := ⟨fun _ => m⟩

/-- The `len` bytes at `loc`, in pieces of `io` bytes. -/
inductive Reads (m : Nat → Nat → Outcome) (io : Nat) : Nat → Nat → List UInt8 → Prop
  | last (h : m loc io = .ok data) (hle : len ≤ io) : Reads m io loc len (bytes data 0 len)
  | piece (h : m loc io = .ok data) (hlt : io < len)
      (hrest : Reads m io (u64 (loc + io)) (len - io) l) :
      Reads m io loc len (bytes data 0 io ++ l)

section

variable {m : Nat → Nat → Outcome} {io : Nat}

theorem Reads.length (h : Reads m io loc len l) : l.length = len := by
  induction h with
  | last => exact length_bytes _ _ _
  | piece h hlt hrest ih =>
    rw [List.length_append, length_bytes, ih]
    exact Nat.add_sub_cancel' (Nat.le_of_lt hlt)

theorem Reads.unique (h : Reads m io loc len l) (h' : Reads m io loc len l') : l = l' := by
  induction h generalizing l' with
  | last h hle =>
    cases h' with
    | last h' =>
      obtain rfl := Outcome.ok.inj (h.symm.trans h')
      rfl
    | piece h' hlt => exact absurd hle (Nat.not_le.2 hlt)
  | piece h hlt hrest ih =>
    cases h' with
    | last h' hle => exact absurd hle (Nat.not_le.2 hlt)
    | piece h' _ hrest' =>
      obtain rfl := Outcome.ok.inj (h.symm.trans h')
      rw [ih hrest']

theorem readRound_ok {s : Pieces} (h : m s.loc io = .ok data) (w : World) :
    ∃ w', Prog.Halts (readRound (steady m) io s) w
      (if (s.take io (s.iobuf.copy 0 data 0 io)).len = 0 then
          .inr (.noError, (s.take io (s.iobuf.copy 0 data 0 io)).buf, s.iobuf.copy 0 data 0 io)
        else .inl (s.take io (s.iobuf.copy 0 data 0 io))) w' := by
  obtain ⟨data', hread, hrun⟩ | ⟨fault, left, hread, hrun⟩ :=
    filesysReadBytes_halts (steady m) s.loc io s.iobuf w
  · obtain rfl := Outcome.ok.inj (h.symm.trans hread)
    exact ⟨_, hrun.bind (.pure _ _)⟩
  · exact absurd (h.symm.trans hread) Outcome.noConfusion

theorem readRound_fail {s : Pieces} (h : m s.loc io = .fail fault left) (w : World) :
    ∃ w', Prog.Halts (readRound (steady m) io s) w (.inr (fault.code, s.buf, left)) w' := by
  obtain ⟨data, hread, hrun⟩ | ⟨fault', left', hread, hrun⟩ :=
    filesysReadBytes_halts (steady m) s.loc io s.iobuf w
  · exact absurd (h.symm.trans hread) Outcome.noConfusion
  · obtain ⟨rfl, rfl⟩ := Outcome.fail.inj (h.symm.trans hread)
    have hround : ∃ w', Prog.Halts (readRound (steady m) io s) w
        (if fault.code ≠ .noError then .inr (fault.code, s.buf, left)
          else if (s.take io left).len = 0 then .inr (fault.code, (s.take io left).buf, left)
          else .inl (s.take io left)) w' := ⟨_, hrun.bind (.pure _ _)⟩
    rw [if_pos fault.code_ne.1] at hround
    exact hround

theorem Pieces.take_buf (s : Pieces) (data : Buf) (io : Nat) :
    (s.take io (s.iobuf.copy 0 data 0 io)).buf =
      put s.buf s.done (bytes data 0 (min io s.len)) := by
  show s.buf.copy s.done (s.iobuf.copy 0 data 0 io) 0 (min io s.len) = _
  rw [copy_eq_put]
  congr 1
  apply bytes_congr
  intro i hi
  exact Buf.copy_inside s.iobuf data (Nat.lt_of_lt_of_le hi (Nat.min_le_left _ _))

theorem readLoop_of_reads (h : Reads m io loc len l) (s : Pieces) (hloc : s.loc = loc)
    (hlen : s.len = len) (w : World) :
    ∃ iobuf w', Prog.Halts (.loop (readRound (steady m) io) s) w
      (.noError, put s.buf s.done l, iobuf) w' := by
  induction h generalizing s w with
  | @last loc data len h hle =>
    subst hloc hlen
    obtain ⟨w', hround⟩ := readRound_ok h w
    have hmin : min io s.len = s.len := Nat.min_eq_right hle
    have hdone : (s.take io (s.iobuf.copy 0 data 0 io)).len = 0 := by
      show s.len - min io s.len = 0
      rw [hmin, Nat.sub_self]
    rw [if_pos hdone, s.take_buf, hmin] at hround
    exact ⟨_, w', hround.loop_done⟩
  | @piece loc data len l h hlt hrest ih =>
    subst hloc hlen
    obtain ⟨w', hround⟩ := readRound_ok h w
    have hmin : min io s.len = io := Nat.min_eq_left (Nat.le_of_lt hlt)
    have hlen : (s.take io (s.iobuf.copy 0 data 0 io)).len = s.len - io := by
      show s.len - min io s.len = s.len - io
      rw [hmin]
    have hloc : (s.take io (s.iobuf.copy 0 data 0 io)).loc = u64 (s.loc + io) := by
      show u64 (s.loc + min io s.len) = u64 (s.loc + io)
      rw [hmin]
    have hat : (s.take io (s.iobuf.copy 0 data 0 io)).done = s.done + (bytes data 0 io).length := by
      show s.done + min io s.len = s.done + (bytes data 0 io).length
      rw [hmin, length_bytes]
    rw [if_neg (by rw [hlen]; exact Nat.sub_ne_zero_of_lt hlt)] at hround
    obtain ⟨iobuf, w'', hrun⟩ := ih _ hloc hlen w'
    rw [s.take_buf, hmin, hat, put_append] at hrun
    exact ⟨iobuf, w'', hround.loop_next hrun⟩

theorem readRound_next (h : Prog.Halts (readRound (steady m) io s) w (.inl s') w') :
    ∃ data, m s.loc io = .ok data ∧ io < s.len ∧ s'.loc = u64 (s.loc + io) ∧
      s'.len = s.len - io := by
  cases hread : m s.loc io with
  | fail fault left =>
    obtain ⟨w₁, hround⟩ := readRound_fail hread w
    exact absurd (h.unique hround).1 Sum.inl_ne_inr
  | ok data =>
    obtain ⟨w₁, hround⟩ := readRound_ok hread w
    by_cases hdone : (s.take io (s.iobuf.copy 0 data 0 io)).len = 0
    · rw [if_pos hdone] at hround
      exact absurd (h.unique hround).1 Sum.inl_ne_inr
    · rw [if_neg hdone] at hround
      obtain rfl := Sum.inl.inj (h.unique hround).1
      have hlt : io < s.len := by
        have hne : s.len - min io s.len ≠ 0 := hdone
        omega
      have hmin : min io s.len = io := Nat.min_eq_left (Nat.le_of_lt hlt)
      refine ⟨data, rfl, hlt, ?_, ?_⟩
      · show u64 (s.loc + min io s.len) = u64 (s.loc + io)
        rw [hmin]
      · show s.len - min io s.len = s.len - io
        rw [hmin]

theorem readRound_done {s : Pieces} {x : Retcode × Buf × Buf}
    (h : Prog.Halts (readRound (steady m) io s) w (.inr x) w') (hret : x.1 = .noError) :
    ∃ data, m s.loc io = .ok data ∧ s.len ≤ io := by
  cases hread : m s.loc io with
  | fail fault left =>
    obtain ⟨w₁, hround⟩ := readRound_fail hread w
    obtain rfl := Sum.inr.inj (h.unique hround).1
    exact absurd hret fault.code_ne.1
  | ok data =>
    obtain ⟨w₁, hround⟩ := readRound_ok hread w
    by_cases hdone : (s.take io (s.iobuf.copy 0 data 0 io)).len = 0
    · have hz : s.len - min io s.len = 0 := hdone
      exact ⟨data, rfl, by omega⟩
    · rw [if_neg hdone] at hround
      exact absurd (h.unique hround).1.symm Sum.inl_ne_inr

theorem reads_of_readLoop {s : Pieces} {x : Retcode × Buf × Buf}
    (h : Prog.Halts (.loop (readRound (steady m) io) s) w x w') (hret : x.1 = .noError) :
    ∃ l, Reads m io s.loc s.len l := by
  -- what is still to be read can be read: then so can everything
  apply Prog.Halts.loop_invariant (fun s' _ => (∃ l, Reads m io s'.loc s'.len l) →
    ∃ l, Reads m io s.loc s.len l) (Q := fun x _ => x.1 = .noError →
    ∃ l, Reads m io s.loc s.len l) _ _ id h hret
  · intro s₁ w₁ s₂ w₂ hinv hround hrest
    obtain ⟨l, hl⟩ := hrest
    obtain ⟨data, hread, hlt, hloc, hlen⟩ := readRound_next hround
    rw [hloc, hlen] at hl
    exact hinv ⟨_, .piece hread hlt hl⟩
  · intro s₁ w₁ x w₂ hinv hround hx
    obtain ⟨data, hread, hle⟩ := readRound_done hround hx
    exact hinv ⟨_, .last hread hle⟩

end

theorem readRound_ne_rEnd {m : Nat → Nat → Outcome} {s : Pieces} {x : Retcode × Buf × Buf}
    (h : Prog.Halts (readRound (steady m) io s) w (.inr x) w') : x.1 ≠ .rEnd := by
  cases hread : m s.loc io with
  | fail fault left =>
    obtain ⟨w₁, hround⟩ := readRound_fail hread w
    obtain rfl := Sum.inr.inj (h.unique hround).1
    exact fault.code_ne.2.1
  | ok data =>
    obtain ⟨w₁, hround⟩ := readRound_ok hread w
    by_cases hdone : (s.take io (s.iobuf.copy 0 data 0 io)).len = 0
    · rw [if_pos hdone] at hround
      obtain rfl := Sum.inr.inj (h.unique hround).1
      exact Retcode.noConfusion
    · rw [if_neg hdone] at hround
      exact absurd (h.unique hround).1.symm Sum.inl_ne_inr

theorem isoReadBlocks_ne_rEnd {m : Nat → Nat → Outcome} {x : Retcode × Buf × Buf}
    (h : Prog.Halts (isoReadBlocks (steady m) loc len buf size iobuf) w x w') : x.1 ≠ .rEnd :=
  Prog.Halts.loop_invariant (fun _ _ => True) (Q := fun x _ => x.1 ≠ .rEnd)
    (fun _ _ _ _ _ _ => trivial) (fun _ _ _ _ _ hround => readRound_ne_rEnd hround) trivial h

theorem isoReadBlocks_of_reads (h : Reads m (min size blockSize) loc len l) (buf iobuf : Buf)
    (w : World) :
    ∃ iobuf' w', Prog.Halts (isoReadBlocks (steady m) loc len buf size iobuf) w
      (.noError, put buf 0 l, iobuf') w' :=
  readLoop_of_reads h ⟨loc, len, 0, buf, iobuf⟩ rfl rfl w

/-- Whenever `iso_read_blocks` succeeds, it is on such a disk. -/
theorem isoReadBlocks_noError {x : Retcode × Buf × Buf}
    (h : Prog.Halts (isoReadBlocks (steady m) loc len buf size iobuf) w x w')
    (hret : x.1 = .noError) :
    ∃ l, Reads m (min size blockSize) loc len l ∧ x.2.1 = put buf 0 l := by
  obtain ⟨l, hl⟩ := reads_of_readLoop h hret
  obtain ⟨iobuf', w'', hrun⟩ := isoReadBlocks_of_reads hl buf iobuf w
  obtain ⟨rfl, -⟩ := h.unique hrun
  exact ⟨l, hl, rfl⟩

end Iso
end Pegasos2.Fs
