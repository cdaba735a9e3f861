import Pegasos2.FfsChains
import Pegasos2.FileChains

namespace Pegasos2.Fs
open Program
set_option autoImplicit true

namespace Ffs

/-- The pointer `i` of a table of data blocks. -/
def Volume.ptr (v : Volume) (hdr : Buf) (i : Nat) : Nat := be32 hdr (dbHighOff v.bsize - i * 4)

/-- From pointer `i` on a table has `n` bytes in blocks that can be read. After them it is used up
if `all` holds, and otherwise the next pointer is 0. -/
inductive TablePtrs (v : Volume) (fetch : Nat → Option Buf) (hdr : Buf) :
    Nat → Nat → Bool → Prop where
  | usedUp : TablePtrs v fetch hdr (dbMax v.bsize) 0 true
  | zero (hi : i < dbMax v.bsize) (hptr : v.ptr hdr i = 0) : TablePtrs v fetch hdr i 0 false
  | block (hi : i < dbMax v.bsize) (hptr : v.ptr hdr i ≠ 0) (hb : fetch (v.ptr hdr i) = some b)
      (hdata : payload v b = some x) (hrest : TablePtrs v fetch hdr (i + 1) n all) :
    TablePtrs v fetch hdr i (x.2 + n) all

/-- The tables of a file from `hdr` on come to their end after `n` bytes. -/
inductive TablesStop (v : Volume) (dataFetch listFetch : Nat → Option Buf) : Buf → Nat → Prop where
  | zero (hptrs : TablePtrs v dataFetch hdr 0 n false) : TablesStop v dataFetch listFetch hdr n
  | last (hptrs : TablePtrs v dataFetch hdr 0 n true) (hext : be32 hdr (offExtension v.bsize) = 0) :
    TablesStop v dataFetch listFetch hdr n
  | next (hptrs : TablePtrs v dataFetch hdr 0 m true) (hext : be32 hdr (offExtension v.bsize) ≠ 0)
      (hb : listFetch (be32 hdr (offExtension v.bsize)) = some b) (hlist : be32 b 0 = tList)
      (hrest : TablesStop v dataFetch listFetch b n) :
    TablesStop v dataFetch listFetch hdr (m + n)

/-- The tables of a file end before its size has been reached. -/
def TablesShort (v : Volume) (dataFetch listFetch : Nat → Option Buf) (hdr : Buf) (toRead : Nat) :
    Prop :=
  ∃ n < toRead, TablesStop v dataFetch listFetch hdr n

section

variable {v : Volume} {d : Drive} {stack buf : Buf}

/-- The result of the loop over the pointers of a table. -/
def TableResult (v : Volume) (fetch : Nat → Option Buf) (toRead : Nat) (hdr : Buf)
    (i written : Nat) : TableEnd × Copied → Prop
  | (.error ret, _) => IsError ret
  | (.done, c) => c.written < toRead ∧
      ∃ n, TablePtrs v fetch hdr i n false ∧ c.written = written + n
  | (.more, c) => c.written = toRead ∨ c.written < toRead ∧
      ∃ n, TablePtrs v fetch hdr i n true ∧ c.written = written + n

theorem tableLoop_result (d : Drive) (stack : Buf) (hdr : Buf) (hk : k ≤ dbMax v.bsize)
    (c : Copied) (hc : c.written ≤ toRead) :
    Prog.Yields (.loop (tableRound d.toDisk stack v toRead hdr) (dbMax v.bsize - k, c))
      (TableResult v (v.fetch d stack) toRead hdr (dbMax v.bsize - k) c.written) := by
  induction k generalizing c with
  | zero =>
    apply Prog.Yields.loop_unfold
    rw [tableRound, if_neg fun h => Nat.lt_irrefl _ h.1]
    apply Prog.Yields.pure
    cases Nat.eq_or_lt_of_le hc with
    | inl heq => exact .inl heq
    | inr hlt => exact .inr ⟨hlt, 0, .usedUp, rfl⟩
  | succ k ih =>
    have hlt : dbMax v.bsize - (k + 1) < dbMax v.bsize := Nat.sub_lt_self (Nat.succ_pos k) hk
    have hnext : dbMax v.bsize - (k + 1) + 1 = dbMax v.bsize - k := by omega
    apply Prog.Yields.loop_unfold
    rw [tableRound]
    by_cases hmore : c.written < toRead
    · rw [if_pos ⟨hlt, hmore⟩]
      dsimp only
      by_cases hzero : be32 hdr (dbHighOff v.bsize - (dbMax v.bsize - (k + 1)) * 4) = 0
      · rw [if_pos hzero]
        exact Prog.Yields.pure ⟨hmore, 0, .zero hlt hzero, rfl⟩
      · rw [if_neg hzero]
        apply Prog.Yields.bind (readBlock_fetches (fun _ _ => rfl) _)
        rintro ⟨ret, b⟩ (⟨b', hb, heq⟩ | ⟨hret, -⟩)
        · obtain ⟨rfl, rfl⟩ := Prod.mk.inj heq
          apply Prog.Yields.pure
          rw [tableNext, if_neg (not_not.2 rfl)]
          cases hdata : payload v b with
          | none => exact isError_eReadError
          | some x =>
            have hptrs {n : Nat} {all : Bool} (hrest : TablePtrs v (v.fetch d stack) hdr
                (dbMax v.bsize - k) n all) :
                TablePtrs v (v.fetch d stack) hdr (dbMax v.bsize - (k + 1)) (x.2 + n) all :=
              .block hlt hzero hb hdata (hnext ▸ hrest)
            obtain ⟨data, len⟩ := x
            dsimp only at hptrs ⊢
            rw [hnext]
            apply (ih (Nat.le_of_succ_le hk) (c.append toRead len data)
              (Copied.append_le hc len data)).mono
            rintro ⟨e, c'⟩ hresult
            cases e with
            | error ret => exact hresult
            | done =>
              obtain ⟨hlt', n, hrest, hn⟩ := hresult
              refine ⟨hlt', _, hptrs hrest, ?_⟩
              rw [hn, Copied.append_of_lt (by omega), Nat.add_assoc]
            | more =>
              cases hresult with
              | inl heq => exact .inl heq
              | inr hshort =>
                obtain ⟨hlt', n, hrest, hn⟩ := hshort
                refine .inr ⟨hlt', _, hptrs hrest, ?_⟩
                rw [hn, Copied.append_of_lt (by omega), Nat.add_assoc]
        · apply Prog.Yields.pure
          rw [tableNext, if_pos hret.1]
          exact hret
    · rw [if_neg fun h => hmore h.2]
      exact Prog.Yields.pure (.inl (Nat.le_antisymm hc (Nat.not_lt.1 hmore)))

theorem TablePtrs.yields (h : TablePtrs v (v.fetch d stack) hdr i n all) (c : Copied)
    (hroom : c.written + n < toRead) :
    Prog.Yields (.loop (tableRound d.toDisk stack v toRead hdr) (i, c)) fun y =>
      y.1 = (if all then .more else .done) ∧ y.2.written = c.written + n := by
  induction h generalizing c with
  | usedUp =>
    apply Prog.Yields.loop_unfold
    rw [tableRound, if_neg fun h => Nat.lt_irrefl _ h.1]
    exact Prog.Yields.pure ⟨rfl, rfl⟩
  | zero hi hptr =>
    apply Prog.Yields.loop_unfold
    rw [tableRound, if_pos ⟨hi, hroom⟩]
    dsimp only
    rw [Volume.ptr] at hptr
    rw [if_pos hptr]
    exact Prog.Yields.pure ⟨rfl, rfl⟩
  | @block i b x n all hi hptr hb hdata hrest ih =>
    apply Prog.Yields.loop_unfold
    rw [tableRound, if_pos ⟨hi, by dsimp only; omega⟩]
    dsimp only
    rw [Volume.ptr] at hptr hb
    rw [if_neg hptr]
    apply Prog.Yields.bind (readBlock_fetches (fun _ _ => rfl) _)
    rintro ⟨ret, b'⟩ (⟨b'', hb', heq⟩ | ⟨-, hnone⟩)
    · obtain ⟨rfl, rfl⟩ := Prod.mk.inj heq
      obtain rfl := Option.some.inj (hb'.symm.trans hb)
      apply Prog.Yields.pure
      rw [tableNext, if_neg (not_not.2 rfl), hdata]
      have hfits : c.written + x.2 ≤ toRead := by omega
      have hwritten := Copied.append_written hfits x.1
      apply (ih (c.append toRead x.2 x.1) (by omega)).mono
      rintro y ⟨he, hy⟩
      exact ⟨he, by rw [hy, hwritten, Nat.add_assoc]⟩
    · cases hnone.symm.trans hb

/-- What a round of the loop over the tables can do. -/
inductive TablesStep (v : Volume) (d : Drive) (stack buf : Buf) (toRead : Nat) (s : Tables) :
    Tables ⊕ (Retcode × Copied) → Prop where
  | fail (hret : IsError ret) : TablesStep v d stack buf toRead s (.inr (ret, c))
  | full (hfull : c.written = toRead) : TablesStep v d stack buf toRead s (.inr (.noError, c))
  | stop (hlt : c.written < toRead) (hstop : TablesStop v (v.fetch d stack) (v.fetch d buf) s.hdr n)
      (hc : c.written = s.copied.written + n) :
      TablesStep v d stack buf toRead s (.inr (.noError, c))
  | next (hlt : c.written < toRead) (hptrs : TablePtrs v (v.fetch d stack) s.hdr 0 m true)
      (hext : be32 s.hdr (offExtension v.bsize) ≠ 0)
      (hb : v.fetch d buf (be32 s.hdr (offExtension v.bsize)) = some b) (hlist : be32 b 0 = tList)
      (hc : c.written = s.copied.written + m) :
    TablesStep v d stack buf toRead s (.inl ⟨b, c, b⟩)

theorem tablesRound_step (hs : s.copied.written ≤ toRead) (htail : SameTail v.bsize s.scratch buf) :
    Prog.Yields (tablesRound d.toDisk stack v toRead s) (TablesStep v d stack buf toRead s) := by
  rw [tablesRound]
  by_cases hmore : s.copied.written < toRead
  · rw [if_pos hmore]
    have hloop := tableLoop_result d stack s.hdr (Nat.le_refl (dbMax v.bsize)) s.copied hs
    rw [Nat.sub_self] at hloop
    apply Prog.Yields.bind hloop
    rintro ⟨e, c⟩ hresult
    dsimp only
    cases e with
    | error ret => exact Prog.Yields.pure (.fail hresult)
    | done =>
      obtain ⟨hlt, n, hptrs, hc⟩ := hresult
      exact Prog.Yields.pure (.stop hlt (.zero hptrs) hc)
    | more =>
      rw [tablesNext]
      obtain hfull | ⟨hlt, n, hptrs, hc⟩ := hresult
      · rw [if_pos (.inr (Nat.le_of_eq hfull.symm))]
        exact Prog.Yields.pure (.full hfull)
      · by_cases hext : be32 s.hdr (offExtension v.bsize) = 0
        · rw [if_pos (.inl hext)]
          exact Prog.Yields.pure (.stop hlt (.last hptrs hext) hc)
        · rw [if_neg fun h => h.elim hext (Nat.not_le.2 hlt)]
          apply Prog.Yields.bind (readBlock_fetches htail _)
          rintro ⟨ret, b⟩ (⟨b', hb, heq⟩ | ⟨hret, -⟩)
          · obtain ⟨rfl, rfl⟩ := Prod.mk.inj heq
            apply Prog.Yields.pure
            rw [if_neg (not_not.2 rfl)]
            by_cases hlist : be32 b 0 = tList
            · rw [if_neg (not_not.2 hlist)]
              exact .next hlt hptrs hext hb hlist hc
            · rw [if_pos hlist]
              exact .fail isError_eReadError
          · apply Prog.Yields.pure
            rw [if_pos hret.1]
            exact .fail hret
  · rw [if_neg hmore]
    exact Prog.Yields.pure (.full (Nat.le_antisymm hs (Nat.not_lt.1 hmore)))

/-- A file that has been read without an error has been read as far as its tables go. -/
theorem tablesLoop_halts (h : Prog.Halts (.loop (tablesRound d.toDisk stack v toRead) s) w y w')
    (hs : s.copied.written ≤ toRead) (htail : SameTail v.bsize s.scratch buf) :
    ReadResult toRead (fun m => ∃ n, TablesStop v (v.fetch d stack) (v.fetch d buf) s.hdr n ∧
      m = s.copied.written + n) y := by
  apply h.loop_rec (fun s _ y _ => s.copied.written ≤ toRead → SameTail v.bsize s.scratch buf →
    ReadResult toRead (fun m => ∃ n, TablesStop v (v.fetch d stack) (v.fetch d buf) s.hdr n ∧
      m = s.copied.written + n) y) ?_ ?_ hs htail
  · intro s w y w' hround hs htail
    obtain ⟨x, w₁, hx, hstep⟩ := tablesRound_step hs htail w
    obtain ⟨rfl, -⟩ := hx.unique hround
    cases hstep with
    | fail hret => exact .fail hret
    | full hfull => exact .whole hfull
    | stop hlt hstop hc => exact .short hlt ⟨_, hstop, hc⟩
  · intro s w s' w₁ y w' hround ih hs htail
    obtain ⟨x, w₂, hx, hstep⟩ := tablesRound_step hs htail w
    obtain ⟨rfl, -⟩ := hx.unique hround
    cases hstep with
    | next hlt hptrs hext hb hlist hc =>
      cases ih (Nat.le_of_lt hlt) (fetch_sameTail hb) with
      | fail hret => exact .fail hret
      | whole hc => exact .whole hc
      | short hlt' hshort =>
        obtain ⟨n, hstop, hn⟩ := hshort
        refine .short hlt' ⟨_, .next hptrs hext hb hlist hstop, ?_⟩
        dsimp only at hn
        rw [hn, hc, Nat.add_assoc]

theorem TablesStop.yields (h : TablesStop v (v.fetch d stack) (v.fetch d buf) hdr n) (c : Copied)
    (scratch : Buf) (htail : SameTail v.bsize scratch buf) (hroom : c.written + n < toRead) :
    Prog.Yields (.loop (tablesRound d.toDisk stack v toRead) ⟨hdr, c, scratch⟩) fun y =>
      y.1 = .noError ∧ y.2.written = c.written + n := by
  induction h generalizing c scratch with
  | zero hptrs =>
    apply Prog.Yields.loop_unfold
    rw [tablesRound, if_pos (Nat.lt_of_le_of_lt (Nat.le_add_right _ _) hroom)]
    apply Prog.Yields.bind (hptrs.yields c hroom)
    rintro ⟨e, c'⟩ ⟨rfl, hc'⟩
    exact Prog.Yields.pure ⟨rfl, hc'⟩
  | last hptrs hext =>
    apply Prog.Yields.loop_unfold
    rw [tablesRound, if_pos (Nat.lt_of_le_of_lt (Nat.le_add_right _ _) hroom)]
    apply Prog.Yields.bind (hptrs.yields c hroom)
    rintro ⟨e, c'⟩ ⟨rfl, hc'⟩
    dsimp only
    rw [if_pos rfl, tablesNext, if_pos (.inl hext)]
    exact Prog.Yields.pure ⟨rfl, hc'⟩
  | @next hdr m b n hptrs hext hb hlist hrest ih =>
    have hroom' : c.written + m < toRead := by omega
    apply Prog.Yields.loop_unfold
    rw [tablesRound, if_pos (Nat.lt_of_le_of_lt (Nat.le_add_right _ _) hroom')]
    apply Prog.Yields.bind (hptrs.yields c hroom')
    rintro ⟨e, c'⟩ ⟨rfl, hc'⟩
    dsimp only at hc' ⊢
    rw [if_pos rfl, tablesNext, if_neg fun h => h.elim hext (Nat.not_le.2 (hc' ▸ hroom'))]
    apply Prog.Yields.bind (readBlock_fetches htail _)
    rintro ⟨ret, b'⟩ (⟨b'', hb', heq⟩ | ⟨-, hnone⟩)
    · obtain ⟨rfl, rfl⟩ := Prod.mk.inj heq
      obtain rfl := Option.some.inj (hb'.symm.trans hb)
      apply Prog.Yields.pure
      rw [if_neg (not_not.2 rfl), if_neg (not_not.2 hlist)]
      apply (ih c' b' (fetch_sameTail hb) (by omega)).mono
      rintro y ⟨hok, hy⟩
      exact ⟨hok, by rw [hy, hc', Nat.add_assoc]⟩
    · cases hnone.symm.trans hb

theorem tableNext_onto (out : Buf) (v : Volume) (toRead i : Nat) (c : Copied) (ret : Retcode)
    (dblk : Buf) :
    tableNext v toRead i (c.onto out) ret dblk =
      (tableNext v toRead i c ret dblk).map (fun s : Nat × Copied => (s.1, s.2.onto out))
        fun y : TableEnd × Copied => (y.1, y.2.onto out) := by
  rw [tableNext, tableNext]
  by_cases hret : ret = .noError
  · rw [if_neg (not_not.2 hret), if_neg (not_not.2 hret)]
    cases payload v dblk with
    | none => rfl
    | some x =>
      dsimp only
      rw [← Copied.onto_append]
      rfl
  · rw [if_pos hret, if_pos hret]
    rfl

theorem tableLoop_onto (out : Buf)
    (h : Prog.Halts (.loop (tableRound d.toDisk stack v toRead hdr) s) w y w') :
    Prog.Halts (.loop (tableRound d.toDisk stack v toRead hdr) (s.1, s.2.onto out)) w
      (y.1, y.2.onto out) w' := by
  apply Prog.Halts.loop_map (fun s : Nat × Copied => (s.1, s.2.onto out))
    (fun y : TableEnd × Copied => (y.1, y.2.onto out)) ?_ h
  intro s w y w' hround
  rw [tableRound] at hround ⊢
  by_cases hmore : s.1 < dbMax v.bsize ∧ s.2.written < toRead
  · rw [if_pos hmore] at hround
    rw [if_pos (show s.1 < dbMax v.bsize ∧ (s.2.onto out).written < toRead from hmore)]
    by_cases hzero : be32 hdr (dbHighOff v.bsize - s.1 * 4) = 0
    · rw [if_pos hzero] at hround ⊢
      obtain ⟨rfl, rfl⟩ := hround.of_pure
      exact .pure _ _
    · rw [if_neg hzero] at hround ⊢
      obtain ⟨⟨ret, dblk⟩, w₁, hread, hrest⟩ := hround.of_bind
      obtain ⟨rfl, rfl⟩ := hrest.of_pure
      apply hread.bind
      dsimp only
      rw [tableNext_onto]
      exact .pure _ _
  · rw [if_neg hmore] at hround
    rw [if_neg (show ¬ (s.1 < dbMax v.bsize ∧ (s.2.onto out).written < toRead) from hmore)]
    obtain ⟨rfl, rfl⟩ := hround.of_pure
    exact .pure _ _

/-- The tables that a round leaves in another buffer. -/
def Tables.onto (out : Buf) (s : Tables) : Tables := { s with copied := s.copied.onto out }

theorem tablesNext_onto (out : Buf)
    (h : Prog.Halts (tablesNext d.toDisk v toRead s c e) w y w') :
    Prog.Halts (tablesNext d.toDisk v toRead (s.onto out) (c.onto out) e) w
      (y.map (Tables.onto out) fun y => (y.1, y.2.onto out)) w' := by
  cases e with
  | error ret =>
    obtain ⟨rfl, rfl⟩ := h.of_pure
    exact .pure _ _
  | done =>
    obtain ⟨rfl, rfl⟩ := h.of_pure
    exact .pure _ _
  | more =>
    rw [tablesNext] at h ⊢
    by_cases hlast : be32 s.hdr (offExtension v.bsize) = 0 ∨ toRead ≤ c.written
    · rw [if_pos hlast] at h
      rw [if_pos (show be32 (s.onto out).hdr (offExtension v.bsize) = 0 ∨
        toRead ≤ (c.onto out).written from hlast)]
      obtain ⟨rfl, rfl⟩ := h.of_pure
      exact .pure _ _
    · rw [if_neg hlast] at h
      rw [if_neg (show ¬ (be32 (s.onto out).hdr (offExtension v.bsize) = 0 ∨
        toRead ≤ (c.onto out).written) from hlast)]
      obtain ⟨⟨ret, b⟩, w₁, hread, hrest⟩ := h.of_bind
      obtain ⟨rfl, rfl⟩ := hrest.of_pure
      apply hread.bind
      dsimp only
      split_ifs
      · exact .pure _ _
      · exact .pure _ _
      · exact .pure _ _

/-- What is read into a buffer is read into any other one, at the same place. -/
theorem readFileContents_onto (out : Buf)
    (h : Prog.Halts (readFileContents d.toDisk stack v hdr b maxBytes buf) w (ret, c) w') :
    Prog.Halts (readFileContents d.toDisk stack v hdr out maxBytes buf) w (ret, c.onto out) w' := by
  have hstart : (⟨hdr, ⟨0, out⟩, buf⟩ : Tables) = .onto out ⟨hdr, ⟨0, b⟩, buf⟩ := by
    rw [Tables.onto, Copied.onto_start]
  rw [readFileContents, hstart]
  apply Prog.Halts.loop_map (Tables.onto out)
    (fun y : Retcode × Copied => (y.1, y.2.onto out)) ?_ h
  intro s w y w' hround
  rw [tablesRound] at hround ⊢
  by_cases hmore : s.copied.written < min (be32 hdr (offByteSize v.bsize)) maxBytes
  · rw [if_pos hmore] at hround
    rw [if_pos (show (s.onto out).copied.written < _ from hmore)]
    obtain ⟨⟨e, c⟩, w₁, hloop, hnext⟩ := hround.of_bind
    exact (tableLoop_onto out hloop).bind (tablesNext_onto out hnext)
  · rw [if_neg hmore] at hround
    rw [if_neg (show ¬ (s.onto out).copied.written < _ from hmore)]
    obtain ⟨rfl, rfl⟩ := hround.of_pure
    exact .pure _ _

/-- A file is read in full, or with an error, unless its tables are too short. -/
theorem readFileContents_reads (v : Volume) (d : Drive) (stack buf hdr : Buf) (maxBytes : Nat) :
    Reads (readFileContents d.toDisk stack v hdr · maxBytes buf)
      (min (be32 hdr (offByteSize v.bsize)) maxBytes)
      (TablesShort v (v.fetch d stack) (v.fetch d buf) hdr
        (min (be32 hdr (offByteSize v.bsize)) maxBytes)) where
  result out w y w' hrun := by
    cases tablesLoop_halts hrun (Nat.zero_le _) (fun _ _ => rfl) with
    | fail hret => exact .fail hret
    | whole hc => exact .whole hc
    | short hlt hshort =>
      obtain ⟨n, hstop, hwritten⟩ := hshort
      rw [Nat.zero_add] at hwritten
      exact .short hlt ⟨n, hwritten ▸ hlt, hstop⟩
  shortened := by
    rintro ⟨n, hlt, hstop⟩ out w
    have hroom : (Copied.mk 0 out).written + n < min (be32 hdr (offByteSize v.bsize)) maxBytes :=
      (Nat.zero_add n).symm ▸ hlt
    obtain ⟨⟨ret, c⟩, w', hrun, rfl, hwritten⟩ :=
      hstop.yields ⟨0, out⟩ buf (fun _ _ => rfl) hroom w
    exact ⟨c, w', hrun, hwritten ▸ hroom⟩
  onto _ out _ _ _ _ hrun := readFileContents_onto out hrun

end

end Ffs

end Pegasos2.Fs
