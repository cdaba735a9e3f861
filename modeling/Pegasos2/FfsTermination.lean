import Pegasos2.FfsChains
import Pegasos2.FfsOpen
import Mathlib.Data.Finite.Prod

namespace Pegasos2.Fs
open Program
open PartitionPkg (Agree)
open Links
open Relation
set_option autoImplicit true

namespace Ffs

/-- No chain that a listing comes to has a cycle. A listing comes to the chain of a bucket after
those of the buckets before it, as long as their blocks can be read. -/
def ListSound (v : Volume) (fetch : Nat → Option Buf) (dir : Buf) : Prop :=
  ∀ i < htEntries v.bsize, (∀ j < i, EndsAt (listNext v fetch) (bucket dir j) 0) →
    Acyclic (listNext v fetch) (bucket dir i)

section

variable {v : Volume} {d : Drive} {buf : Buf}

/-- The result of the loop over a hash chain that ends at `e`. -/
def Chained (v : Volume) (buf : Buf) (e : Nat) (x : Bool × Listing) : Prop :=
  if e = 0 then x.1 = true ∧ SameTail v.bsize x.2.scratch buf else x.1 = false

theorem listRound_follows (s : Nat × Listing) (h : SameTail v.bsize s.2.scratch buf) :
    Prog.Yields (listRound d.toDisk v s)
      (Links.Round (listNext v (v.fetch d buf)) (fun s => SameTail v.bsize s.2.scratch buf)
        Prod.fst (Chained v buf) s.1) := by
  rw [listRound]
  by_cases hzero : s.1 = 0
  · rw [if_pos hzero]
    apply Prog.Yields.pure
    constructor
    · rw [listNext, if_pos hzero]
    · rw [Chained, if_pos hzero]
      exact ⟨rfl, h⟩
  · rw [if_neg hzero]
    apply Prog.Yields.bind (readBlock_fetches h s.1)
    rintro ⟨ret, b⟩ (⟨b', hb, heq⟩ | ⟨hret, hnone⟩)
    · obtain ⟨rfl, rfl⟩ := Prod.mk.inj heq
      apply Prog.Yields.pure
      rw [if_neg (not_not.2 rfl)]
      constructor
      · exact fetch_sameTail hb
      · rw [listNext, if_neg hzero, hb]
        rfl
    · apply Prog.Yields.pure
      rw [if_pos hret.1]
      constructor
      · rw [listNext, if_neg hzero, hnone]
        rfl
      · rw [Chained, if_neg hzero]

theorem listNext_ends_iff (n : Nat) :
    (∃ e, EndsAt (listNext v (v.fetch d buf)) n e) ↔ Acyclic (listNext v (v.fetch d buf)) n :=
  ends_iff_acyclic (Set.finite_lt_nat (2 ^ 32)) (fun _ _ h => listNext_lt h) n

/-- A round of the loop over the hash table goes on if the chain ends at 0. -/
theorem bucketRound_follows {dir : Buf} {s : Nat × Listing} (hi : s.1 < htEntries v.bsize)
    (h : SameTail v.bsize s.2.scratch buf)
    (he : EndsAt (listNext v (v.fetch d buf)) (bucket dir s.1) e) :
    Prog.Yields (bucketRound d.toDisk v dir s) fun x =>
      (e = 0 ∧ ∃ l, x = .inl (s.1 + 1, l) ∧ SameTail v.bsize l.scratch buf) ∨
        e ≠ 0 ∧ ∃ l, x = .inr l := by
  rw [bucketRound, if_pos hi]
  apply Prog.Yields.bind (loop_yields listRound_follows he (a := (bucket dir s.1, s.2)) h rfl)
  rintro ⟨ok, l⟩ hx
  apply Prog.Yields.pure
  rw [Chained] at hx
  by_cases hzero : e = 0
  · rw [if_pos hzero] at hx
    obtain ⟨rfl, htail⟩ := hx
    rw [if_pos rfl]
    exact .inl ⟨hzero, l, rfl, htail⟩
  · rw [if_neg hzero] at hx
    obtain rfl := hx
    rw [if_neg Bool.false_ne_true]
    exact .inr ⟨hzero, l, rfl⟩

theorem bucketLoop_acyclic {dir : Buf} {s : Nat × Listing} (hs : s.1 ≤ i)
    (hi : i < htEntries v.bsize)
    (hbefore : ∀ j < i, EndsAt (listNext v (v.fetch d buf)) (bucket dir j) 0)
    (h : SameTail v.bsize s.2.scratch buf)
    (hends : Prog.Ends (.loop (bucketRound d.toDisk v dir) s) w) :
    Acyclic (listNext v (v.fetch d buf)) (bucket dir i) := by
  induction hm : i - s.1 generalizing s w with
  | zero =>
    have heq : s.1 = i := Nat.le_antisymm hs (Nat.sub_eq_zero_iff_le.1 hm)
    obtain ⟨l, w', hrun⟩ := hends
    have hround : Prog.Ends (bucketRound d.toDisk v dir s) w := by
      obtain hdone | ⟨s', w₁, hnext, -⟩ := hrun.of_loop
      · exact hdone.ends
      · exact hnext.ends
    rw [bucketRound, heq, if_pos hi] at hround
    obtain ⟨x, w₁, hx⟩ := hround
    obtain ⟨y, w₂, hchain, -⟩ := hx.of_bind
    have hlast := (loop_ends_iff listRound_follows (a := (bucket dir i, s.2)) h w).1 hchain.ends
    exact (listNext_ends_iff _).1 hlast
  | succ m ih =>
    have hlt : s.1 < i := Nat.lt_of_sub_eq_succ hm
    obtain ⟨x, w₁, hx, hnext⟩ :=
      bucketRound_follows (hlt.trans hi) h (hbefore s.1 hlt) w
    obtain ⟨-, l, rfl, htail⟩ | ⟨hne, -⟩ := hnext
    · obtain ⟨y, w₂, hrun⟩ := hends
      have hrest := (Prog.Halts.loop_iff hx).1 hrun
      refine ih (s := (s.1 + 1, l)) hlt htail hrest.ends ?_
      dsimp only
      omega
    · exact absurd rfl hne

/-- A directory can be listed if and only if the listing comes to no cycle. -/
theorem listDirectory_ends_iff (dir : Buf) (w : World) :
    Prog.Ends (listDirectory d.toDisk v dir buf) w ↔ ListSound v (v.fetch d buf) dir := by
  constructor
  · intro hends i hi hbefore
    exact bucketLoop_acyclic (s := (0, ⟨[], buf⟩)) (Nat.zero_le i) hi hbefore (fun _ _ => rfl) hends
  · intro hsound
    have htotal : Prog.Total (listDirectory d.toDisk v dir buf) := by
      apply Prog.Yields.loop
        (fun s => (∀ j < s.1, EndsAt (listNext v (v.fetch d buf)) (bucket dir j) 0) ∧
          SameTail v.bsize s.2.scratch buf) (fun s => htEntries v.bsize - s.1)
      · rintro s ⟨hbefore, htail⟩
        by_cases hi : s.1 < htEntries v.bsize
        · obtain ⟨e, he⟩ := (listNext_ends_iff _).2 (hsound s.1 hi hbefore)
          apply (bucketRound_follows hi htail he).mono
          rintro x (⟨rfl, l, rfl, hl⟩ | ⟨-, l, rfl⟩)
          · refine ⟨⟨?_, hl⟩, Nat.sub_lt_sub_left hi (Nat.lt_succ_self s.1)⟩
            intro j hj
            cases Nat.lt_succ_iff_lt_or_eq.1 hj with
            | inl hlt => exact hbefore j hlt
            | inr heq =>
              rw [heq]
              exact he
          · trivial
        · rw [bucketRound, if_neg hi]
          exact Prog.Yields.pure trivial
      · exact ⟨fun j hj => absurd hj (Nat.not_lt_zero j), fun _ _ => rfl⟩
    exact htotal.ends w

end

/-- How many bytes have been written after the last `k` pointers of a table, if the way goes on to
the next table. Before them it is `w` bytes. -/
def filled (v : Volume) (fetch : Nat → Option Buf) (toRead : Nat) (hdr : Buf) :
    Nat → Nat → Option Nat
  | 0, w => some w
  | k + 1, w =>
    if toRead ≤ w then some w
    else if be32 hdr (dbHighOff v.bsize - (dbMax v.bsize - (k + 1)) * 4) = 0 then none
    else ((fetch (be32 hdr (dbHighOff v.bsize - (dbMax v.bsize - (k + 1)) * 4))).bind
        (payload v)).bind fun x => filled v fetch toRead hdr k (w + min (toRead - w) x.2)

/-- The link of a table of data blocks, with what has been written before it. -/
def tableLink (v : Volume) (dataFetch listFetch : Nat → Option Buf) (toRead : Nat)
    (t : Buf × Nat) : Option (Buf × Nat) :=
  if toRead ≤ t.2 then none
  else (filled v dataFetch toRead t.1 (dbMax v.bsize) t.2).bind fun w =>
    if be32 t.1 (offExtension v.bsize) = 0 ∨ toRead ≤ w then none
    else (listFetch (be32 t.1 (offExtension v.bsize))).bind fun b =>
      if be32 b 0 = tList then some (b, w) else none

section

variable {v : Volume} {d : Drive} {stack buf : Buf}

theorem tableLoop_fills (d : Drive) (stack : Buf) (toRead : Nat) (hdr : Buf)
    (hk : k ≤ dbMax v.bsize) (c : Copied) :
    Prog.Yields (.loop (tableRound d.toDisk stack v toRead hdr) (dbMax v.bsize - k, c)) fun x =>
      (x.1 = .more ∧ filled v (v.fetch d stack) toRead hdr k c.written = some x.2.written) ∨
        x.1 ≠ .more ∧ filled v (v.fetch d stack) toRead hdr k c.written = none := by
  induction k generalizing c with
  | zero =>
    apply Prog.Yields.loop_unfold
    rw [tableRound, if_neg fun h => Nat.lt_irrefl _ h.1]
    exact Prog.Yields.pure (.inl ⟨rfl, rfl⟩)
  | succ k ih =>
    have hlt : dbMax v.bsize - (k + 1) < dbMax v.bsize := Nat.sub_lt_self (Nat.succ_pos k) hk
    have hnext : dbMax v.bsize - (k + 1) + 1 = dbMax v.bsize - k := by omega
    apply Prog.Yields.loop_unfold
    rw [tableRound, filled]
    by_cases hfull : toRead ≤ c.written
    · rw [if_pos hfull, if_neg fun h => Nat.not_lt.2 hfull h.2]
      exact Prog.Yields.pure (.inl ⟨rfl, rfl⟩)
    · rw [if_neg hfull, if_pos ⟨hlt, Nat.not_le.1 hfull⟩]
      dsimp only
      by_cases hzero : be32 hdr (dbHighOff v.bsize - (dbMax v.bsize - (k + 1)) * 4) = 0
      · rw [if_pos hzero, if_pos hzero]
        exact Prog.Yields.pure (.inr ⟨fun h => TableEnd.noConfusion h, rfl⟩)
      · rw [if_neg hzero, if_neg hzero]
        apply Prog.Yields.bind (readBlock_fetches (fun _ _ => rfl) _)
        rintro ⟨ret, b⟩ (⟨b', hb, heq⟩ | ⟨hret, hnone⟩)
        · obtain ⟨rfl, rfl⟩ := Prod.mk.inj heq
          apply Prog.Yields.pure
          rw [hb, Option.bind_some, tableNext, if_neg (not_not.2 rfl)]
          cases hdata : payload v b with
          | none => exact .inr ⟨fun h => TableEnd.noConfusion h, rfl⟩
          | some x =>
            obtain ⟨data, len⟩ := x
            dsimp only
            rw [hnext]
            exact ih (Nat.le_of_succ_le hk) (c.append toRead len data)
        · apply Prog.Yields.pure
          rw [hnone, tableNext, if_pos hret.1]
          exact .inr ⟨fun h => TableEnd.noConfusion h, rfl⟩

theorem tablesRound_follows (toRead : Nat) (s : Tables) (h : SameTail v.bsize s.scratch buf) :
    Prog.Yields (tablesRound d.toDisk stack v toRead s)
      (Links.Round (tableLink v (v.fetch d stack) (v.fetch d buf) toRead)
        (fun s => SameTail v.bsize s.scratch buf) (fun s => (s.hdr, s.copied.written))
        (fun _ _ => True) (s.hdr, s.copied.written)) := by
  rw [tablesRound]
  by_cases hfull : s.copied.written < toRead
  · rw [if_pos hfull]
    have hfills := tableLoop_fills d stack toRead s.hdr (Nat.le_refl (dbMax v.bsize)) s.copied
    rw [Nat.sub_self] at hfills
    apply Prog.Yields.bind hfills
    rintro ⟨e, c⟩ (⟨rfl, hw⟩ | ⟨hmore, hnone⟩)
    · dsimp only at hw ⊢
      rw [tablesNext]
      by_cases hlast : be32 s.hdr (offExtension v.bsize) = 0 ∨ toRead ≤ c.written
      · rw [if_pos hlast]
        apply Prog.Yields.pure
        refine ⟨?_, trivial⟩
        rw [tableLink, if_neg (Nat.not_le.2 hfull), hw, Option.bind_some, if_pos hlast]
      · rw [if_neg hlast]
        apply Prog.Yields.bind (readBlock_fetches h _)
        rintro ⟨ret, b⟩ (⟨b', hb, heq⟩ | ⟨hret, hnone⟩)
        · obtain ⟨rfl, rfl⟩ := Prod.mk.inj heq
          apply Prog.Yields.pure
          rw [if_neg (not_not.2 rfl)]
          by_cases hlist : be32 b 0 = tList
          · rw [if_neg (not_not.2 hlist)]
            refine ⟨fetch_sameTail hb, ?_⟩
            rw [tableLink, if_neg (Nat.not_le.2 hfull), hw, Option.bind_some, if_neg hlast, hb,
              Option.bind_some, if_pos hlist]
          · rw [if_pos hlist]
            refine ⟨?_, trivial⟩
            rw [tableLink, if_neg (Nat.not_le.2 hfull), hw, Option.bind_some, if_neg hlast, hb,
              Option.bind_some, if_neg hlist]
        · apply Prog.Yields.pure
          rw [if_pos hret.1]
          refine ⟨?_, trivial⟩
          rw [tableLink, if_neg (Nat.not_le.2 hfull), hw, Option.bind_some, if_neg hlast, hnone,
            Option.bind_none]
    · have hstop : tableLink v (v.fetch d stack) (v.fetch d buf) toRead
          (s.hdr, s.copied.written) = none := by
        rw [tableLink, if_neg (Nat.not_le.2 hfull), hnone, Option.bind_none]
      cases e with
      | error ret => exact Prog.Yields.pure ⟨hstop, trivial⟩
      | done => exact Prog.Yields.pure ⟨hstop, trivial⟩
      | more => exact absurd rfl hmore
  · rw [if_neg hfull]
    apply Prog.Yields.pure
    refine ⟨?_, trivial⟩
    rw [tableLink, if_pos (Nat.not_lt.1 hfull)]

theorem tableLink_mem {dataFetch listFetch : Nat → Option Buf}
    (h : tableLink v dataFetch listFetch toRead t = some t') :
    (∃ n < 2 ^ 32, listFetch n = some t'.1) ∧ t'.2 < toRead := by
  rw [tableLink] at h
  split_ifs at h
  obtain ⟨w, -, h⟩ := Option.bind_eq_some_iff.1 h
  split_ifs at h with hlast
  obtain ⟨b, hb, h⟩ := Option.bind_eq_some_iff.1 h
  split_ifs at h
  obtain rfl := Option.some.inj h
  exact ⟨⟨_, be32_lt _ _, hb⟩, Nat.not_le.1 fun hle => hlast (.inr hle)⟩

theorem filled_le {fetch : Nat → Option Buf} (h : filled v fetch toRead hdr k w = some w') :
    w ≤ w' := by
  induction k generalizing w with
  | zero => exact Nat.le_of_eq (Option.some.inj h)
  | succ k ih =>
    rw [filled] at h
    split_ifs at h
    · exact Nat.le_of_eq (Option.some.inj h)
    · obtain ⟨x, -, hrest⟩ := Option.bind_eq_some_iff.1 h
      exact (Nat.le_add_right w _).trans (ih hrest)

theorem tableLink_lt {dataFetch listFetch : Nat → Option Buf} (hffs : v.isFfs = true)
    (hmax : 0 < dbMax v.bsize) (h : tableLink v dataFetch listFetch toRead t = some t') :
    t.2 < t'.2 := by
  rw [tableLink] at h
  split_ifs at h with hfull
  obtain ⟨w, hw, h⟩ := Option.bind_eq_some_iff.1 h
  split_ifs at h
  obtain ⟨b, -, h⟩ := Option.bind_eq_some_iff.1 h
  split_ifs at h
  obtain rfl := Option.some.inj h
  obtain ⟨k, hk⟩ := Nat.exists_eq_succ_of_ne_zero (Nat.ne_of_gt hmax)
  rw [hk, filled, if_neg hfull] at hw
  split_ifs at hw
  obtain ⟨x, hx, hrest⟩ := Option.bind_eq_some_iff.1 hw
  obtain ⟨data, -, hpayload⟩ := Option.bind_eq_some_iff.1 hx
  rw [payload, if_pos hffs] at hpayload
  obtain rfl := Option.some.inj hpayload
  have hle := filled_le hrest
  have hpos : 0 < v.bsize := by
    rw [dbMax] at hmax
    omega
  dsimp only at hle ⊢
  omega

theorem fetched_finite (fetch : Nat → Option Buf) :
    {b | ∃ n < 2 ^ 32, fetch n = some b}.Finite := by
  apply ((Set.finite_lt_nat (2 ^ 32)).image fun n => (fetch n).getD fun _ => 0).subset
  rintro b ⟨n, hn, hb⟩
  refine ⟨n, hn, ?_⟩
  dsimp only
  rw [hb, Option.getD_some]

theorem tableLink_ends_iff {dataFetch listFetch : Nat → Option Buf} (t : Buf × Nat) :
    (∃ e, EndsAt (tableLink v dataFetch listFetch toRead) t e) ↔
      Acyclic (tableLink v dataFetch listFetch toRead) t :=
  ends_iff_acyclic ((fetched_finite listFetch).prod (Set.finite_lt_nat toRead))
    (fun _ _ h => Set.mem_prod.2 (tableLink_mem h)) t

theorem readFileContents_ends_iff (hdr out : Buf) (maxBytes : Nat) (w : World) :
    Prog.Ends (readFileContents d.toDisk stack v hdr out maxBytes buf) w ↔
      Acyclic (tableLink v (v.fetch d stack) (v.fetch d buf)
        (min (be32 hdr (offByteSize v.bsize)) maxBytes)) (hdr, 0) :=
  (loop_ends_iff (tablesRound_follows _) (fun _ _ => rfl) w).trans (tableLink_ends_iff _)

end

/-- `load` comes to no cycle of tables. -/
def LoadSound (v : Volume) (dataFetch listFetch : Nat → Option Buf) (hdr : Buf) : Prop :=
  Acyclic (tableLink v dataFetch listFetch (min (be32 hdr (offByteSize v.bsize)) 0xFFFFFFFF))
    (hdr, 0)

/-- A call on the volume `v` comes to no cycle: neither on its path, nor in the directory that it
lists or the file that it loads. -/
def Sound (v : Volume) (d : Drive) (stack buf : Buf) (q : Call) : Prop :=
  match q.what with
  | .probe => True
  | .list => Searched v (v.fetch d stack) (root v q.path) ∧
      ∀ n b, n ≠ 0 → Target v d stack q.path n b → IsDir v b → ListSound v (v.fetch d buf) b
  | .load => Searched v (v.fetch d stack) (root v q.path) ∧
      ∀ n b, n ≠ 0 → Target v d stack q.path n b → be32 b (offSecType v.bsize) = stFile →
        LoadSound v (v.fetch d stack) (v.fetch d buf) b

/-- The tables of a file on an FFS volume come to no cycle: a cycle takes data blocks that hold no
data, as only those of an OFS volume can. -/
theorem LoadSound.of_ffs {v : Volume} (hffs : v.isFfs = true) (hmax : 0 < dbMax v.bsize)
    (dataFetch listFetch : Nat → Option Buf) (hdr : Buf) :
    LoadSound v dataFetch listFetch hdr :=
  .of_lt Prod.snd (fun _ _ h => tableLink_lt hffs hmax h) _

section

variable {v : Volume} {d : Drive} {stack buf : Buf}

/-- What follows the walk along a path ends if and only if no chain on the way has a cycle, and it
ends for the header block that the path leads to. -/
theorem walk_ends_iff {k : Nat → Buf → Io Reply} {S : Buf → Prop} (path : List Char)
    (reply : Reply) (hk : ∀ n b w, n ≠ 0 → (Prog.Ends (k n b) w ↔ S b)) (w : World) :
    Prog.Ends (do
      let (block, scratch) ← walkPath d.toDisk v path stack
      if block = 0 then pure reply else k block scratch) w ↔
    Searched v (v.fetch d stack) (root v path) ∧
      ∀ n b, n ≠ 0 → Target v d stack path n b → S b := by
  constructor
  · rintro ⟨r, w', hrun⟩
    obtain ⟨⟨n, b⟩, w₁, hwalk, hrest⟩ := hrun.of_bind
    have hsearched := walkPath_searched hwalk.ends
    refine ⟨hsearched, fun m c hm htarget => ?_⟩
    obtain ⟨x, w₂, hx, hleads⟩ := walkPath_targets hsearched w
    obtain ⟨rfl, rfl⟩ := hx.unique hwalk
    obtain ⟨rfl, rfl⟩ := Prod.mk.inj ((hleads m c hm).1 htarget)
    dsimp only at hrest
    rw [if_neg hm] at hrest
    exact (hk _ _ _ hm).1 hrest.ends
  · rintro ⟨hsearched, hS⟩
    obtain ⟨⟨n, b⟩, w₁, hwalk, hleads⟩ := walkPath_targets hsearched w
    apply hwalk.bind_ends
    dsimp only
    by_cases hzero : n = 0
    · rw [if_pos hzero]
      exact .pure _ _
    · rw [if_neg hzero]
      exact (hk n b w₁ hzero).2 (hS n b hzero ((hleads n b hzero).2 rfl))

theorem list_ends_iff (q : Call) (scratch : Buf) (w : World) :
    Prog.Ends (list d.toDisk v q buf scratch) w ↔
      (IsDir v scratch → ListSound v (v.fetch d buf) scratch) := by
  rw [list]
  by_cases hdir : IsDir v scratch
  · rw [if_pos hdir.symm]
    constructor
    · rintro ⟨r, w', hrun⟩ -
      obtain ⟨l, w₁, hlist, -⟩ := hrun.of_bind
      exact (listDirectory_ends_iff scratch w).1 hlist.ends
    · intro hsound
      obtain ⟨l, w₁, hlist⟩ := (listDirectory_ends_iff scratch w).2 (hsound hdir)
      exact hlist.bind_ends (.pure _ _)
  · rw [if_neg fun h => hdir h.symm]
    exact ⟨fun _ h => absurd h hdir, fun _ => .pure _ _⟩

theorem load_ends_iff (q : Call) (scratch : Buf) (w : World) :
    Prog.Ends (load d.toDisk stack v q buf scratch) w ↔
      (be32 scratch (offSecType v.bsize) = stFile →
        LoadSound v (v.fetch d stack) (v.fetch d buf) scratch) := by
  rw [load]
  by_cases hfile : be32 scratch (offSecType v.bsize) = stFile
  · rw [if_neg (not_not.2 hfile)]
    constructor
    · rintro ⟨r, w', hrun⟩ -
      obtain ⟨x, w₁, hread, -⟩ := hrun.of_bind
      exact (readFileContents_ends_iff scratch q.retbuf _ w).1 hread.ends
    · intro hsound
      obtain ⟨x, w₁, hread⟩ := (readFileContents_ends_iff scratch q.retbuf _ w).2 (hsound hfile)
      exact hread.bind_ends (.pure _ _)
  · rw [if_pos hfile]
    exact ⟨fun _ h => absurd h hfile, fun _ => .pure _ _⟩

theorem act_ends_iff (v : Volume) (q : Call) (buf : Buf) (w : World) :
    Prog.Ends (act d.toDisk stack v q buf q.what) w ↔ Sound v d stack buf q := by
  rw [Sound]
  cases q.what with
  | probe => exact ⟨fun _ => trivial, fun _ => .pure _ _⟩
  | list =>
    exact walk_ends_iff q.path (q.reply .eNoFile) (fun _ b w _ => list_ends_iff q b w) w
  | load =>
    exact walk_ends_iff q.path (q.reply .eNoFile) (fun _ b w _ => load_ends_iff q b w) w

end

/-- The open step of a call finds the volume `v`, and leaves `buf` in `g_ffs_iobuf`. -/
def Mounts (d : Drive) (stack iobuf : Buf) (q : Call) (w : World) (v : Volume) (buf : Buf) : Prop :=
  bsizeDefault ≤ q.size ∧
    ∃ w', Prog.Halts (mount d.toDisk stack iobuf q.loc w.hint) w (some (v, buf)) w'

theorem Mounts.sound {q : Call} (h : Mounts d stack iobuf q w v buf)
    (hends : Prog.Ends (amigaFfs d.toDisk stack iobuf q) w) : Sound v d stack buf q := by
  obtain ⟨hsize, w₁, hmount⟩ := h
  obtain ⟨r, w', hrun⟩ := hends
  have hhint : Prog.Halts getHint w w.hint w := .access _ w
  rw [amigaFfs, if_neg (Nat.not_lt.2 hsize)] at hrun
  have hrest := hmount.bind_iff.1 (hhint.bind_iff.1 hrun)
  exact (act_ends_iff v q buf w₁).1 hrest.ends

/-- `amiga_ffs` ends if and only if the call comes to no cycle, on the volume that its open step
finds. -/
theorem amigaFfs_ends_iff (d : Drive) (stack iobuf : Buf) (q : Call) (w : World) :
    Prog.Ends (amigaFfs d.toDisk stack iobuf q) w ↔
      ∀ v buf, Mounts d stack iobuf q w v buf → Sound v d stack buf q := by
  constructor
  · intro hends v buf hmounts
    exact hmounts.sound hends
  · intro hsound
    rw [amigaFfs]
    by_cases hsize : q.size < bsizeDefault
    · rw [if_pos hsize]
      exact .pure _ _
    · rw [if_neg hsize]
      have hhint : Prog.Halts getHint w w.hint w := .access _ w
      obtain ⟨x, w₁, hmount, -⟩ := mount_rootRight_iff d stack iobuf q.loc w.hint w
      apply hhint.bind_ends
      apply hmount.bind_ends
      cases x with
      | none => exact .pure _ _
      | some x =>
        obtain ⟨v, buf⟩ := x
        exact (act_ends_iff v q buf w₁).2 (hsound v buf ⟨Nat.not_lt.1 hsize, w₁, hmount⟩)

/-- A volume whose root block at 880 has a bucket with the block 1, which links to itself. -/
def knotDrive : Drive where
  toImageDisk := Disk.ofImage (written [be 0 4 0x444F5301, be 450560 4 tHeader,
    be 450580 4 0xFFFFFFFC, be 450584 4 1, be 451068 4 stRoot, be 1008 4 1])
  steady _ _ _ _ := rfl

/-- `FS_LIST` of the root. -/
def listRoot : Call := ⟨.list, [], 0, 0, fun _ => 0, 512, fun _ => 0, [], 0⟩

theorem knotDrive_mounts : ∃ v buf,
    Mounts knotDrive (fun _ => 0) (fun _ => 0) listRoot Rdb.boot v buf ∧
      (v.partLoc, v.bsize, v.rootBlock) = (0, 512, 880) ∧
      (be32 v.rootbuf 508, be32 v.rootbuf 24) = (stRoot, 1) := by
  have hfacts : ((mount knotDrive.toDisk (fun _ => 0) (fun _ => 0) 0 ⟨0, 0⟩).run 0 Rdb.boot).map
      (fun y => y.1.map fun z => ((z.1.partLoc, z.1.bsize, z.1.rootBlock),
        (be32 z.1.rootbuf 508, be32 z.1.rootbuf 24))) =
      some (some ((0, 512, 880), (stRoot, 1))) := by
    decide +kernel
  obtain ⟨⟨x, w'⟩, hmount, hx⟩ := Option.map_eq_some_iff.1 hfacts
  obtain ⟨⟨v, buf⟩, rfl, hv⟩ := Option.map_eq_some_iff.1 hx
  obtain ⟨hplace, hwords⟩ := Prod.mk.inj hv
  exact ⟨v, buf, ⟨Nat.le_refl 512, w', 0, hmount⟩, hplace, hwords⟩

theorem knotDrive_links (buf : Buf) (hloc : v.partLoc = 0) (hbsize : v.bsize = 512) :
    listNext v (v.fetch knotDrive buf) 1 = some 1 := by
  have hread : knotDrive.read 0 (u64 (0 + 1 * 512)) 512 =
      .ok fun i => knotDrive.image (512 + i) := rfl
  have hlink : be32 (fun i => knotDrive.image (512 + i)) 496 = 1 := by decide +kernel
  have hcopy : Agree 512 (buf.copy 0 (fun i => knotDrive.image (512 + i)) 0 512)
      fun i => knotDrive.image (512 + i) := by
    intro i hi
    rw [← Nat.zero_add i, Buf.copy_inside _ _ hi]
  rw [listNext, if_neg Nat.one_ne_zero, Volume.fetch, hloc, hbsize, hread, Option.map_some,
    offNextHash, hcopy.be32 (by decide), hlink]

/-- The listing of the root goes round the block 1 forever. -/
theorem knotDrive_hangs :
    ¬ Prog.Ends (amigaFfs knotDrive.toDisk (fun _ => 0) (fun _ => 0) listRoot) Rdb.boot := by
  intro hends
  obtain ⟨v, buf, hmounts, hplace, hwords⟩ := knotDrive_mounts
  obtain ⟨hloc, hplace⟩ := Prod.mk.inj hplace
  obtain ⟨hbsize, hroot⟩ := Prod.mk.inj hplace
  obtain ⟨htype, hbucket⟩ := Prod.mk.inj hwords
  have hcopy : Agree 512 (Buf.copy (fun _ => 0) 0 v.rootbuf 0 v.bsize) v.rootbuf := by
    intro i hi
    rw [hbsize, ← Nat.zero_add i, Buf.copy_inside _ _ hi]
  have hdir : IsDir v (Buf.copy (fun _ => 0) 0 v.rootbuf 0 v.bsize) := by
    right
    rw [hcopy.be32 (by rw [offSecType, hbsize]), offSecType, hbsize]
    exact htype
  have htarget : Target v knotDrive (fun _ => 0) listRoot.path 880
      (Buf.copy (fun _ => 0) 0 v.rootbuf 0 v.bsize) := by
    rw [Target, if_pos (show listRoot.path.dropWhile isSep = [] from rfl)]
    exact ⟨hroot.symm, rfl⟩
  have hfirst : bucket (Buf.copy (fun _ => 0) 0 v.rootbuf 0 v.bsize) 0 = 1 := by
    rw [bucket, hcopy.be32 (by decide)]
    exact hbucket
  obtain ⟨-, hlists⟩ : _ ∧ _ := hmounts.sound hends
  have hlist := hlists 880 _ (by decide) htarget hdir 0 (by rw [hbsize]; decide)
    fun j hj => absurd hj (Nat.not_lt_zero j)
  rw [hfirst] at hlist
  exact hlist 1 .refl (.single (knotDrive_links buf hloc hbsize))

end Ffs

end Pegasos2.Fs
