import Pegasos2.AmigaRdb
import Pegasos2.ByteFields
import Mathlib.Data.List.TakeWhile
import Mathlib.Tactic.SplitIfs

namespace Pegasos2.Fs
open Program
set_option autoImplicit true

namespace Rdb

/-- Bytes per cylinder, as an integer. -/
def Env.cylinder (v : Env) : Nat := v.surfaces * v.blocksPerTrack * v.sizeBlock * 4

/-- The number of cylinders, as an integer. -/
def Env.cylinders (v : Env) : Nat := v.highCyl - v.lowCyl + 1

/-- The environment describes a partition. -/
structure Env.Good (v : Env) : Prop where
  sizeBlock : v.sizeBlock ≠ 0
  surfaces : v.surfaces ≠ 0
  blocksPerTrack : v.blocksPerTrack ≠ 0
  cylinders : v.lowCyl ≤ v.highCyl

/-- One of the numbers in the computation of the range has no place in its type. -/
def Env.Overflows (v : Env) : Prop :=
  2 ^ 64 ≤ v.lowCyl * v.cylinder ∨ 2 ^ 64 ≤ v.cylinders * v.cylinder ∨
    2 ^ 64 ≤ v.lowCyl * v.cylinder + v.cylinders * v.cylinder ∨ 2 ^ 32 ≤ v.cylinders

/-- The range of a partition is exact, and refused where it cannot be. -/
structure RangeRight (block : Buf) : Prop where
  exact : ∀ start size, decodePartitionRange block = some (start, size) →
    (env block).Good ∧ start = (env block).lowCyl * (env block).cylinder ∧
      size = (env block).cylinders * (env block).cylinder
  overflow : (env block).Overflows → decodePartitionRange block = none

theorem Env.range_eq_none (v : Env) (h : ¬ v.Good) : v.range = none := by
  rw [range, if_pos]
  by_contra hgood
  obtain ⟨hsize, hsurfaces, hblocks, hcyl⟩ := not_or.1 hgood |>.imp_right fun h =>
    (not_or.1 h).imp_right not_or.1
  exact h ⟨hsize, hsurfaces, hblocks, Nat.not_lt.1 hcyl⟩

theorem Env.range_eq_some (v : Env) (h : v.Good) :
    v.range = some (u64 (v.lowCyl * v.cylinder), u64 (u32 v.cylinders * v.cylinder)) := by
  have hno :
      ¬ (v.sizeBlock = 0 ∨ v.surfaces = 0 ∨ v.blocksPerTrack = 0 ∨ v.highCyl < v.lowCyl) := by
    rintro (hz | hz | hz | hz)
    · exact h.sizeBlock hz
    · exact h.surfaces hz
    · exact h.blocksPerTrack hz
    · exact absurd h.cylinders (Nat.not_le.2 hz)
  rw [range, if_neg hno, bpc, ← cylinder, ← cylinders]
  simp only [u64, Nat.mul_mod_mod]

theorem Env.end_eq (v : Env) (h : v.Good) :
    v.lowCyl * v.cylinder + v.cylinders * v.cylinder = (v.highCyl + 1) * v.cylinder := by
  have hcyl := h.cylinders
  rw [← Nat.add_mul, cylinders]
  congr 1
  omega

/-- The range is right just if the partition ends within 64 bits, and is not all of the cylinders
that there can be. -/
theorem decodePartitionRange_right_iff (block : Buf) :
    RangeRight block ↔ ¬ (env block).Good ∨
      ((env block).highCyl + 1) * (env block).cylinder < 2 ^ 64 ∧
        ¬ ((env block).lowCyl = 0 ∧ (env block).highCyl = 2 ^ 32 - 1) := by
  have hhigh : (env block).highCyl < 2 ^ 32 := be32_lt block _
  by_cases hgood : (env block).Good
  · have hcyl := hgood.cylinders
    have hend := Env.end_eq _ hgood
    have hsome : decodePartitionRange block = _ := Env.range_eq_some _ hgood
    constructor
    · intro h
      right
      have hno : ¬ (env block).Overflows := by
        intro hover
        rw [h.overflow hover] at hsome
        cases hsome
      rw [Env.Overflows, hend] at hno
      obtain ⟨-, -, hfits, hcount⟩ := not_or.1 hno |>.imp_right fun h =>
        (not_or.1 h).imp_right not_or.1
      refine ⟨Nat.not_le.1 hfits, ?_⟩
      rintro ⟨hlow, hall⟩
      apply hcount
      rw [Env.cylinders, hlow, hall]
      decide
    · intro h
      obtain ⟨hfits, hpart⟩ := h.resolve_left (not_not.2 hgood)
      have hcount : (env block).cylinders < 2 ^ 32 := by
        rw [Env.cylinders]
        omega
      rw [← hend] at hfits
      constructor
      · intro start size heq
        rw [hsome] at heq
        obtain ⟨rfl, rfl⟩ := Prod.mk.inj (Option.some.inj heq)
        refine ⟨hgood, ?_, ?_⟩
        · exact Nat.mod_eq_of_lt (Nat.lt_of_le_of_lt (Nat.le_add_right _ _) hfits)
        · rw [u32, Nat.mod_eq_of_lt hcount]
          exact Nat.mod_eq_of_lt (Nat.lt_of_le_of_lt (Nat.le_add_left _ _) hfits)
      · intro hover
        rw [Env.Overflows] at hover
        omega
  · have hnone : decodePartitionRange block = none := Env.range_eq_none _ hgood
    constructor
    · intro _
      exact .inl hgood
    · intro _
      constructor
      · intro start size heq
        rw [hnone] at heq
        cases heq
      · intro _
        exact hnone

/-- A partition block with cylinders of 2 ^ 64 bytes. -/
def wrappedBlock : Buf :=
  written [be 132 4 128, be 140 4 0x80000000, be 148 4 0x01000000, be 164 4 1, be 168 4 1]

/-- The partition is said to be at the start of the disk, and to be empty. -/
theorem wrappedBlock_accepted : decodePartitionRange wrappedBlock = some (0, 0) ∧
    ¬ RangeRight wrappedBlock := by
  have hzero : decodePartitionRange wrappedBlock = some (0, 0) := by decide +kernel
  refine ⟨hzero, fun h => ?_⟩
  obtain ⟨-, hstart, -⟩ := h.exact 0 0 hzero
  revert hstart
  decide +kernel

/-- The value of a decimal numeral. -/
def decimal (l : List Char) : Nat := l.foldl (fun n c => n * 10 + (c.toNat - '0'.toNat)) 0

/-- What is behind an optional comma. -/
def afterComma (path : List Char) : List Char := if path.head? = some ',' then path.tail else path

/-- The value of the numeral at the front of a path, and what is behind it and one comma. -/
def numeral (path : List Char) : Option (Nat × List Char) :=
  if path.takeWhile isDigit = [] then none
  else some (decimal (path.takeWhile isDigit), afterComma (path.dropWhile isDigit))

/-- A path up to its first blank. -/
def uptoBlank (path : List Char) : List Char := path.takeWhile fun c => c != ' ' && c != '\t'

theorem takeDigits_eq (n : Int) (path : List Char) :
    takeDigits n path =
      ((path.takeWhile isDigit).foldl
        (fun n c => Int.bmod (n * 10 + (c.toNat - '0'.toNat)) (2 ^ 32)) n,
        path.dropWhile isDigit) := by
  induction path generalizing n with
  | nil => rfl
  | cons c path ih =>
    rw [takeDigits]
    split_ifs with hc
    · rw [ih, List.takeWhile_cons_of_pos hc, List.dropWhile_cons_of_pos hc, List.foldl_cons]
    · rw [List.takeWhile_cons_of_neg hc, List.dropWhile_cons_of_neg hc, List.foldl_nil]

theorem foldl_bmod (m : Nat) (f : α → Int) (l : List α) (n : Int) :
    l.foldl (fun n c => Int.bmod (n * 10 + f c) m) (Int.bmod n m) =
      Int.bmod (l.foldl (fun n c => n * 10 + f c) n) m := by
  induction l generalizing n with
  | nil => rfl
  | cons c l ih =>
    rw [List.foldl_cons, List.foldl_cons, ← ih]
    congr 1
    rw [← Int.bmod_add_bmod, Int.bmod_mul_bmod, Int.bmod_add_bmod]

theorem isDigit_le (h : isDigit c = true) : '0'.toNat ≤ c.toNat := by
  rw [isDigit, Bool.and_eq_true] at h
  exact of_decide_eq_true h.1

theorem cast_foldl (base : Nat) (l : List Char) (h : ∀ c ∈ l, base ≤ c.toNat) (n : Nat) :
    l.foldl (fun n c => n * 10 + ((c.toNat : Int) - (base : Int))) (n : Int) =
      (l.foldl (fun n c => n * 10 + (c.toNat - base)) n : Nat) := by
  induction l generalizing n with
  | nil => rfl
  | cons c l ih =>
    have hle := h c List.mem_cons_self
    rw [List.foldl_cons, List.foldl_cons, ← ih fun x hx => h x (List.mem_cons_of_mem c hx)]
    congr 1
    push_cast [hle]
    rfl

theorem selectPartition_none (h : numeral path = none) : selectPartition path = (-1, path) := by
  cases path with
  | nil => rfl
  | cons c l =>
    have hc : ¬ isDigit c = true := by
      intro hc
      rw [numeral, List.takeWhile_cons_of_pos hc, if_neg (List.cons_ne_nil _ _)] at h
      cases h
    rw [selectPartition, if_neg hc]

/-- The selected partition is the value of the numeral as a C `int`. -/
theorem selectPartition_some (h : numeral path = some (n, rest)) :
    selectPartition path = (Int.bmod n (2 ^ 32), rest) := by
  rw [numeral] at h
  split_ifs at h with hempty
  obtain ⟨rfl, rfl⟩ := Prod.mk.inj (Option.some.inj h)
  cases path with
  | nil => exact absurd rfl hempty
  | cons c l =>
    have hc : isDigit c = true := by
      by_contra hc
      exact hempty (List.takeWhile_cons_of_neg hc)
    have hdigits : ∀ x ∈ (c :: l).takeWhile isDigit, '0'.toNat ≤ x.toNat :=
      fun x hx => isDigit_le (List.mem_takeWhile_imp hx)
    have hvalue := (foldl_bmod (2 ^ 32) (fun c : Char => (c.toNat : Int) - ('0'.toNat : Int))
      ((c :: l).takeWhile isDigit) 0).trans
        (congrArg (Int.bmod · (2 ^ 32)) (cast_foldl '0'.toNat _ hdigits 0))
    rw [selectPartition, if_pos hc, takeDigits_eq]
    exact congrArg (·, afterComma _) hvalue

theorem takeWhile_take (p : α → Bool) (n : Nat) (l : List α) :
    (l.take n).takeWhile p = (l.takeWhile p).take n := by
  induction l generalizing n with
  | nil => rw [List.take_nil, List.takeWhile_nil, List.take_nil]
  | cons x l ih =>
    cases n with
    | zero => rfl
    | succ n =>
      rw [List.take_succ_cons, List.takeWhile_cons, List.takeWhile_cons, ih]
      split_ifs
      · rw [List.take_succ_cons]
      · rfl

/-- `path_clean` is the whole path up to a blank just if that has at most 255 characters. -/
theorem pathClean_eq_iff (path : List Char) :
    pathClean path = uptoBlank path ↔ (uptoBlank path).length ≤ 255 := by
  have htake : pathClean path = (uptoBlank path).take 255 := takeWhile_take _ 255 path
  rw [htake]
  constructor
  · intro h
    have hlen := congrArg List.length h
    rw [List.length_take] at hlen
    omega
  · exact List.take_of_length_le

section Recursion

variable (d : Disk) (q : Call)

/-- `amiga_rdb` calls `file_system` with `call` in the state `w'`, whatever that does, and returns
what it returns. -/
def Recurses (w : World) (call : Call) (w' : World) : Prop :=
  ∀ fs r w₁, Prog.Halts (amigaRdb d fs q) w r w₁ ↔
    ∃ r', Prog.Halts (fs call) w' r' w₁ ∧ r = relabel r'

/-- `amiga_rdb` returns an error, whatever `file_system` would do. -/
def Refuses (w : World) : Prop :=
  ∀ fs, ∃ ret w', Prog.Halts (amigaRdb d fs q) w (q.reply ret) w' ∧ ret ≠ .noError ∧ ret ≠ .rEnd

/-- The block of partition `n` of the RDB, with the state after it has been read. -/
def PartitionAt (w : World) (n : Nat) (buf : Buf) (w' : World) : Prop :=
  ∃ buf₀ w₀, Opened d q w buf₀ w₀ ∧ partition d q.loc (first buf₀, w₀) n = some (buf, w')

/-- The path selects a partition of the RDB, and only what it says of it is looked for there. -/
structure PathRight (w : World) : Prop where
  recursion : ∀ call w', Recurses d q w call w' → ∃ n rest buf w₁ start size,
    numeral q.path = some (n, rest) ∧ PartitionAt d q w n buf w₁ ∧
      decodePartitionRange buf = some (start, size) ∧ call.loc = u64 (q.loc + start) ∧
      call.path = uptoBlank rest
  beyond : q.what ≠ .probe → ∀ n rest, numeral q.path = some (n, rest) →
    (∀ buf w', ¬ PartitionAt d q w n buf w') → Refuses d q w
  long : q.what ≠ .probe → ∀ n rest, numeral q.path = some (n, rest) →
    255 < (uptoBlank rest).length → Refuses d q w

/-- The partition that the selected index is taken for, or the whole chain without an error. -/
def Reached (w : World) : Prop := (∃ n call w', NestedCall d q w n call w') ∨ Unselected d q w

/-- What `amiga_rdb` does to list or to load, by the partition that the path selects. -/
inductive Selected (w : World) : Prop
  | nested (hnest : NestedCall d q w n call w') (hrec : Recurses d q w call w')
  | ended (hun : Unselected d q w) (hno : ∀ n call w', ¬ NestedCall d q w n call w')
      (hend : ∀ fs, ∃ w', Prog.Halts (amigaRdb d fs q) w (q.reply .rEnd) w')
  | refused (hno : ¬ Reached d q w) (hrefuses : Refuses d q w)

variable {d q}

theorem Unselected.opened (h : Unselected d q w) : ∃ buf w₀, Opened d q w buf w₀ := by
  obtain ⟨buf, w₀, -, -, -, hop, -⟩ := h
  exact ⟨buf, w₀, hop⟩

theorem NestedCall.recurses (h : NestedCall d q w n call w')
    (hwhat : q.what = .list ∨ q.what = .load) : Recurses d q w call w' := by
  have hprobe : q.what ≠ .probe := by
    rintro heq
    rw [heq] at hwhat
    obtain hwhat | hwhat := hwhat <;> cases hwhat
  intro fs r w₁
  obtain ⟨buf₀, w₀, buf, w₂, start, size, hop, hpart, hrange, rfl, rfl⟩ := h.slice
  obtain ⟨buf', w₀', hop', hrun⟩ | ⟨hno, -⟩ := amigaRdb_opens d fs q hprobe w
  · obtain ⟨rfl, rfl⟩ := hop.unique hop'
    have hidx : (selectPartition q.path).1 = ((first buf₀).idx : Int) + n := by
      rw [h.selected, first]
      exact (Int.zero_add _).symm
    have henters (hnone : NoneEntered d q (selectPartition q.path).1 (first buf₀, w₀)) : False :=
      hnone n buf w₂ hpart ⟨by rw [hrange]; exact Option.some_ne_none _, hidx, hwhat⟩
    cases walkEnd d fs q (selectPartition q.path).1 (selectPartition q.path).2 (first buf₀, w₀) with
    | atEnd hchain hend hidx' hnone hloop => exact (henters hnone).elim
    | broken hchain hend hread hnone hne hne' hloop => exact (henters hnone).elim
    | @entered m buf' w₂' start' size' hpart' hrange' hidx' hwhat' hloop =>
      have hm : n = m := Int.ofNat.inj (Int.add_left_cancel (hidx.symm.trans hidx'))
      subst hm
      obtain ⟨rfl, rfl⟩ := Prod.mk.inj (Option.some.inj (hpart.symm.trans hpart'))
      obtain ⟨rfl, rfl⟩ := Prod.mk.inj (Option.some.inj (hrange.symm.trans hrange'))
      exact (hrun r w₁).trans (hloop r w₁)
  · exact absurd hop (hno buf₀ w₀)

/-- Without a nested call the walk comes to its end or fails, whatever `file_system` would do. -/
theorem amigaRdb_stops (hprobe : q.what ≠ .probe) (hop : Opened d q w buf₀ w₀)
    (hno : ∀ n call w', ¬ NestedCall d q w n call w') (fs : Call → Io Reply) :
    (Unselected d q w ∧ ∃ w', Prog.Halts (amigaRdb d fs q) w (q.reply .rEnd) w') ∨
      ¬ Unselected d q w ∧ ∃ ret w', Prog.Halts (amigaRdb d fs q) w (q.reply ret) w' ∧
        ret ≠ .noError ∧ ret ≠ .rEnd := by
  obtain ⟨buf, w₁, hop', hrun⟩ | ⟨hnone, -⟩ := amigaRdb_opens d fs q hprobe w
  · obtain ⟨rfl, rfl⟩ := hop.unique hop'
    cases walkEnd d fs q (selectPartition q.path).1 (selectPartition q.path).2 (first buf₀, w₀) with
    | @atEnd n p w₁ hchain hend hidx hnone hloop =>
      have hloop := (hrun _ _).2 hloop
      have hidx : p.idx = n := hidx.trans (Nat.zero_add n)
      split_ifs at hloop with hsel
      · right
        refine ⟨?_, _, _, hloop, Retcode.noConfusion, Retcode.noConfusion⟩
        rintro ⟨buf', w₀', m, p', w', hop'', -, -, hneg | ⟨i, b, w₂, hi, hpart, -⟩⟩
        · exact absurd hsel.1 (Int.not_le.2 hneg)
        · obtain ⟨rfl, rfl⟩ := hop.unique hop''
          have hlt : i < n := lt_of_partition hchain (readBlock_atEnd d hend _) hpart
          rw [hi, hidx] at hsel
          exact absurd (Int.ofNat_le.1 hsel.2) (Nat.not_le.2 hlt)
      · left
        refine ⟨⟨buf₀, w₀, n, p, w₁, hop, hchain, hend, ?_⟩, w₁, hloop⟩
        by_cases hneg : (selectPartition q.path).1 < 0
        · exact .inl hneg
        · obtain ⟨i, hi⟩ := Int.eq_ofNat_of_zero_le (Int.not_lt.1 hneg)
          have hlt : i < n := by
            rw [hi, hidx] at hsel
            exact Nat.not_le.1 fun hle => hsel ⟨Int.natCast_nonneg i, Int.ofNat_le.2 hle⟩
          obtain ⟨b, w₂, hpart⟩ := partition_of_chain hchain hlt
          refine .inr ⟨i, b, w₂, hi, hpart, ?_⟩
          cases hrange : decodePartitionRange b with
          | none => rfl
          | some range =>
            exact absurd ⟨hi, buf₀, w₀, b, w₂, range.1, range.2, hop, hpart, hrange, rfl, rfl⟩
              (hno i (Rdb.slice q (selectPartition q.path).2 b range.1) _)
    | @broken n p w₁ ret w' hchain hend hread hnone hne hne' hloop =>
      right
      refine ⟨?_, ret, w', (hrun _ _).2 hloop, hne, hne'⟩
      rintro ⟨buf', w₀', m, p', w₂, hop'', hchain', hend', -⟩
      obtain ⟨rfl, rfl⟩ := hop.unique hop''
      have heq := chain_stop_unique d hchain hread hchain' (readBlock_atEnd d hend' _)
      obtain ⟨rfl, -⟩ := Prod.mk.inj heq
      exact hend hend'
    | @entered n b w₁ start size hpart hrange hidx hwhat hloop =>
      have hsel : (selectPartition q.path).1 = n := hidx.trans (Int.zero_add _)
      exact absurd ⟨hsel, buf₀, w₀, b, w₁, start, size, hop, hpart, hrange, rfl, rfl⟩
        (hno n (Rdb.slice q (selectPartition q.path).2 b start) _)
  · exact absurd hop (hnone buf₀ w₀)

theorem selected_cases (hprobe : q.what ≠ .probe) (w : World) : Selected d q w := by
  have hwhat : q.what = .list ∨ q.what = .load := by
    cases hq : q.what with
    | probe => exact absurd hq hprobe
    | list => exact .inl rfl
    | load => exact .inr rfl
  by_cases hnest : ∃ n call w', NestedCall d q w n call w'
  · obtain ⟨n, call, w', hnest⟩ := hnest
    exact .nested hnest (hnest.recurses hwhat)
  · have hno : ∀ n call w', ¬ NestedCall d q w n call w' :=
      fun n call w' h => hnest ⟨n, call, w', h⟩
    by_cases hop : ∃ buf w₀, Opened d q w buf w₀
    · obtain ⟨buf₀, w₀, hop⟩ := hop
      by_cases hun : Unselected d q w
      · refine .ended hun hno fun fs => ?_
        obtain ⟨-, hend⟩ | ⟨hnot, -⟩ := amigaRdb_stops hprobe hop hno fs
        · exact hend
        · exact absurd hun hnot
      · refine .refused (not_or.2 ⟨hnest, hun⟩) fun fs => ?_
        obtain ⟨hyes, -⟩ | ⟨-, hrefuses⟩ := amigaRdb_stops hprobe hop hno fs
        · exact absurd hyes hun
        · exact hrefuses
    · refine .refused (not_or.2 ⟨hnest, fun hun => hop hun.opened⟩) fun fs => ?_
      obtain ⟨buf, w₀, hop', -⟩ | ⟨-, hrefuses⟩ := amigaRdb_opens d fs q hprobe w
      · exact absurd ⟨buf, w₀, hop'⟩ hop
      · exact hrefuses

theorem relabel_reply_ret (call : Call) (ret : Retcode) (h : ret ≠ .eNoFilesys) :
    (relabel (call.reply ret)).ret = ret := if_neg h

/-- A call that diverges, and one that does not. -/
def spin : Io Reply := .loop (fun _ => pure (.inl ())) ()

theorem spin_diverges (w : World) : Prog.Diverges spin w :=
  Prog.Diverges.loop (fun _ _ => True) (fun _ s _ => ⟨(), s, .pure _ s, trivial⟩) trivial

/-- `amiga_rdb` does not return if `file_system` does not. -/
theorem Recurses.not_halts (h : Recurses d q w call w') :
    ¬ Prog.Halts (amigaRdb d (fun _ => spin) q) w r w₁ := by
  intro hrun
  obtain ⟨r', hr', -⟩ := (h _ _ _).1 hrun
  exact hr'.not_diverges (spin_diverges w')

theorem Recurses.not_refuses (h : Recurses d q w call w') : ¬ Refuses d q w := by
  intro hrefuses
  obtain ⟨ret, w₁, hrun, -⟩ := hrefuses fun _ => spin
  exact h.not_halts hrun

theorem Recurses.unique (h : Recurses d q w call w₁) (h' : Recurses d q w call' w₂) :
    call = call' := by
  classical
  by_contra hne
  let fs : Call → Io Reply := fun c => pure (c.reply (if c = call then .rEnd else .noError))
  have hrun : Prog.Halts (amigaRdb d fs q) w (relabel (call.reply .rEnd)) w₁ := by
    refine (h _ _ _).2 ⟨_, .pure _ _, ?_⟩
    rw [if_pos rfl]
  obtain ⟨r', hr', heq⟩ := (h' _ _ _).1 hrun
  obtain ⟨rfl, -⟩ := hr'.of_pure
  rw [if_neg (Ne.symm hne)] at heq
  have hret := congrArg Reply.ret heq
  rw [relabel_reply_ret call _ Retcode.noConfusion,
    relabel_reply_ret call' _ Retcode.noConfusion] at hret
  cases hret

theorem probe_halts (hprobe : q.what = .probe) (fs : Call → Io Reply) (w : World) :
    Prog.Ends (amigaRdb d fs q) w := by
  rw [amigaRdb]
  split_ifs
  · exact .pure _ _
  · have hset : Prog.Halts (setHint ⟨0, 0⟩) w () { w with hint := ⟨0, 0⟩ } := .access _ _
    apply hset.bind_ends
    obtain ⟨⟨rdb, buf⟩, w₁, hfind⟩ := findRdbFrom_ends d q.loc 16 0 q.buf { w with hint := ⟨0, 0⟩ }
    apply Prog.Halts.bind_ends (show Prog.Halts (findRdb d q.loc q.buf) _ _ _ from hfind)
    cases rdb with
    | none => exact .pure _ _
    | some b =>
      obtain ⟨data, -, hread⟩ | ⟨fault, left, -, hread⟩ := filesysReadBytes_halts d
        (u64 (q.loc + b * blockSizeDefault)) blockSizeDefault buf w₁
      · apply hread.bind_ends
        dsimp only
        rw [afterReread, if_neg fun hne => hne rfl, if_pos hprobe]
        exact .pure _ _
      · apply hread.bind_ends
        dsimp only
        rw [afterReread, if_pos fault.code_ne.1]
        exact .pure _ _

theorem NestedCall.partitionAt (h : NestedCall d q w n call w') :
    ∃ buf w₁ start size, PartitionAt d q w n buf w₁ ∧
      decodePartitionRange buf = some (start, size) ∧ call.loc = u64 (q.loc + start) ∧
      call.path = pathClean (selectPartition q.path).2 := by
  obtain ⟨buf₀, w₀, buf, w₁, start, size, hop, hpart, hrange, rfl, -⟩ := h.slice
  exact ⟨buf, w₁, start, size, ⟨buf₀, w₀, hop, hpart⟩, hrange, rfl, rfl⟩

/-- The partitions of the chain are fewer than the limit of the traversal. -/
theorem PartitionAt.lt (h : PartitionAt d q w n buf w') : n < maxPartitions := by
  obtain ⟨buf₀, w₀, -, hpart⟩ := h
  have hlt := idx_lt_of_partition hpart
  rw [first] at hlt
  exact (Nat.zero_add n) ▸ hlt

/-- An index that is not negative is that of a partition if the whole chain has been walked. -/
theorem Unselected.partitionAt {n : Nat} (h : Unselected d q w)
    (hsel : (selectPartition q.path).1 = (n : Int)) :
    ∃ buf w', PartitionAt d q w n buf w' := by
  obtain ⟨buf₀, w₀, m, p, w₁, hop, -, -, hneg | ⟨i, buf, w', hi, hpart, -⟩⟩ := h
  · rw [hsel] at hneg
    exact absurd (Int.natCast_nonneg n) (Int.not_le.2 hneg)
  · have hni : n = i := Int.ofNat.inj (hsel.symm.trans hi)
    subst hni
    exact ⟨buf, w', buf₀, w₀, hop, hpart⟩

theorem bmod_eq {n : Nat} (h : n < 2 ^ 31) : Int.bmod n (2 ^ 32) = n := by
  apply Int.bmod_eq_of_le <;> omega

theorem not_refuses_of_end (hend : ∀ fs, ∃ w', Prog.Halts (amigaRdb d fs q) w (q.reply .rEnd) w') :
    ¬ Refuses d q w := by
  intro hrefuses
  obtain ⟨ret, w', hrun, -, hne⟩ := hrefuses fun _ => spin
  obtain ⟨w'', hrun'⟩ := hend fun _ => spin
  exact hne (congrArg Reply.ret (hrun.unique hrun').1)

theorem PathRight.of_refuses (h : Refuses d q w) : PathRight d q w where
  recursion := fun _ _ hrec => absurd h hrec.not_refuses
  beyond := fun _ _ _ _ _ => h
  long := fun _ _ _ _ _ => h

/-- The numeral of the path, and what is behind it, can be passed on. -/
def Fits (path : List Char) : Prop :=
  ∀ n rest, numeral path = some (n, rest) → n < 2 ^ 31 ∧ (uptoBlank rest).length ≤ 255

theorem Fits.selected (h : Fits path) (hnum : numeral path = some (n, rest)) :
    selectPartition path = ((n : Int), rest) := by
  rw [selectPartition_some hnum, bmod_eq (h n rest hnum).1]

theorem NestedCall.pathRight (h : NestedCall d q w n call w') (hrec : Recurses d q w call w')
    (hfits : Fits q.path) : PathRight d q w := by
  obtain ⟨buf, w₁, start, size, hpart, hrange, hloc, hpath⟩ := h.partitionAt
  constructor
  · intro call' w'' hrec'
    obtain rfl := hrec.unique hrec'
    cases hnum : numeral q.path with
    | none =>
      have hsel := h.selected
      rw [selectPartition_none hnum] at hsel
      exact absurd hsel (by omega)
    | some x =>
      obtain ⟨m, rest⟩ := x
      have hsel := h.selected
      rw [hfits.selected hnum] at hsel
      have hmn : m = n := Int.ofNat.inj hsel
      subst hmn
      refine ⟨m, rest, buf, w₁, start, size, rfl, hpart, hrange, hloc, ?_⟩
      rw [hpath, hfits.selected hnum]
      exact (pathClean_eq_iff rest).2 (hfits m rest hnum).2
  · intro _ m rest hnum hnone
    have hsel := h.selected
    rw [hfits.selected hnum] at hsel
    have hmn : m = n := Int.ofNat.inj hsel
    subst hmn
    exact absurd hpart (hnone buf w₁)
  · intro _ m rest hnum hlong
    exact absurd (hfits m rest hnum).2 (Nat.not_le.2 hlong)

theorem NestedCall.fits (h : NestedCall d q w n call w') (hrec : Recurses d q w call w')
    (hright : PathRight d q w) : Fits q.path := by
  intro m rest hnum
  obtain ⟨buf, w₁, start, size, -, -, -, hpath⟩ := h.partitionAt
  obtain ⟨m', rest', buf', w₂, start', size', hnum', hpart', -, -, hpath'⟩ :=
    hright.recursion call w' hrec
  obtain ⟨rfl, rfl⟩ := Prod.mk.inj (Option.some.inj (hnum.symm.trans hnum'))
  constructor
  · exact hpart'.lt.trans (by decide)
  · rw [hpath, selectPartition_some hnum] at hpath'
    exact (pathClean_eq_iff rest).1 hpath'

/-- Where the walk ends without an error, the path is right just if it fits. -/
theorem Unselected.pathRight_iff (h : Unselected d q w) (hprobe : q.what ≠ .probe)
    (hend : ∀ fs, ∃ w', Prog.Halts (amigaRdb d fs q) w (q.reply .rEnd) w') :
    PathRight d q w ↔ Fits q.path := by
  have hnot := not_refuses_of_end hend
  constructor
  · intro hright m rest hnum
    constructor
    · by_contra hlarge
      refine hnot (hright.beyond hprobe m rest hnum fun buf w' hpart => ?_)
      exact hlarge (hpart.lt.trans (by decide))
    · by_contra hlong
      exact hnot (hright.long hprobe m rest hnum (Nat.not_le.1 hlong))
  · intro hfits
    constructor
    · intro call w' hrec
      obtain ⟨w'', hrun⟩ := hend fun _ => spin
      exact absurd hrun hrec.not_halts
    · intro _ m rest hnum hnone
      have hsel := congrArg Prod.fst (hfits.selected hnum)
      obtain ⟨buf, w', hpart⟩ := h.partitionAt hsel
      exact absurd hpart (hnone buf w')
    · intro _ m rest hnum hlong
      exact absurd (hfits m rest hnum).2 (Nat.not_le.2 hlong)

/-- The path is right unless its numeral or what is behind it is too long, and the walk does not
fail all the same. -/
theorem amigaRdb_pathRight_iff (d : Disk) (q : Call) (w : World) :
    PathRight d q w ↔ q.what = .probe ∨ Fits q.path ∨ ¬ Reached d q w := by
  by_cases hprobe : q.what = .probe
  · constructor
    · intro _
      exact .inl hprobe
    · intro _
      constructor
      · intro call w' hrec
        obtain ⟨r, w₁, hrun⟩ := probe_halts hprobe (fun _ => spin) w
        exact absurd hrun hrec.not_halts
      · intro h
        exact absurd hprobe h
      · intro h
        exact absurd hprobe h
  · cases selected_cases hprobe w with
    | @nested n call w' hnest hrec =>
      have hreached : Reached d q w := .inl ⟨n, call, w', hnest⟩
      constructor
      · intro hright
        exact .inr (.inl (hnest.fits hrec hright))
      · intro h
        obtain hfits | hno := h.resolve_left hprobe
        · exact hnest.pathRight hrec hfits
        · exact absurd hreached hno
    | ended hun hno hend =>
      have hreached : Reached d q w := .inr hun
      constructor
      · intro hright
        exact .inr (.inl ((hun.pathRight_iff hprobe hend).1 hright))
      · intro h
        obtain hfits | hno := h.resolve_left hprobe
        · exact (hun.pathRight_iff hprobe hend).2 hfits
        · exact absurd hreached hno
    | refused hno hrefuses =>
      constructor
      · intro _
        exact .inr (.inr hno)
      · intro _
        exact .of_refuses hrefuses

end Recursion

/-- A disk with an RDB in block 0 and one partition of two blocks, in block 1. -/
def smallPartition : Disk :=
  (Disk.ofImage (written [be 0 4 magicRdsk, be 4 4 64, be 8 4 0xADBBAC74, be 28 4 1,
    be 512 4 magicPart, be 528 4 0xFFFFFFFF, be 644 4 128, be 652 4 1, be 660 4 1,
    be 676 4 2, be 680 4 3])).toDisk

/-- The path names partition 2 ^ 32, and `file_system` is called for partition 0. -/
theorem smallPartition_wraps :
    ¬ PathRight smallPartition { blank with path := "4294967296,kernel".toList } boot := by
  intro h
  have hnum : numeral "4294967296,kernel".toList = some (4294967296, "kernel".toList) := by
    decide +kernel
  have hrefuses := h.beyond Action.noConfusion _ _ hnum fun buf w' hpart =>
    absurd hpart.lt (by decide)
  have hrun : ((amigaRdb smallPartition (fun q => pure (q.reply .rEnd))
      { blank with path := "4294967296,kernel".toList }).run 3 boot).map (·.1.ret) =
        some .rEnd := by decide +kernel
  obtain ⟨⟨r, w'⟩, hrun, hret⟩ := Option.map_eq_some_iff.1 hrun
  obtain ⟨ret, w₁, hrun', -, hne⟩ := hrefuses fun q => pure (q.reply .rEnd)
  obtain ⟨rfl, -⟩ := hrun'.unique ⟨3, hrun⟩
  exact hne hret

end Rdb
end Pegasos2.Fs
