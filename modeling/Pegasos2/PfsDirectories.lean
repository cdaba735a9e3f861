import Pegasos2.PfsAnodes
import Pegasos2.SfsDirectories

namespace Pegasos2.Fs
open Program
open PartitionPkg (Agree)
open Sfs (bytes_congr)
set_option autoImplicit true

namespace Pfs

/-- The offsets of the entries from `off` on, at most `n` of them. -/
def entriesFrom (b : Buf) : Nat → Nat → List Nat
  | 0, _ => []
  | n + 1, off => if EntryOk b off then off :: entriesFrom b n (off + b.nat off) else []

def entries (b : Buf) : List Nat := entriesFrom b bsize 20

/-- The entries that a name is compared with. Those whose names are empty or do not fit into the
block are skipped. -/
def searched (b : Buf) : List Direntry :=
  ((entries b).filter fun off => b.nat (off + 17) ≠ 0 ∧ NameOk b off).map (direntry b)

/-- The entries that are listed: those in front of the first one whose name does not fit. -/
def listed (b : Buf) : List Direntry :=
  ((entries b).takeWhile fun off => NameOk b off).map (direntry b)

def isDb (b : Buf) : Bool := be16 b 0 == idDb

/-- The entries that a name is compared with in the blocks `bs`. -/
def searchedIn (bs : List Buf) : List Direntry := (bs.takeWhile isDb).flatMap searched

/-- The entries that are listed of the blocks `bs`. -/
def listedIn (bs : List Buf) : List Direntry := (bs.filter isDb).flatMap listed

/-- The first of some entries with a name. -/
def firstNamed (name : List UInt8) (es : List Direntry) : Except Retcode Direntry :=
  match es.find? fun e => nameEq foldCh e.name name with
  | some e => .ok e
  | none => .error .eNoFile

theorem scan_yields (b : Buf) (name : List UInt8) (hn : bsize - off ≤ n) :
    Prog.Yields (.loop (fun off => (pure (scanRound name b off) : Io _)) off)
      (· = firstNamed name (((entriesFrom b n off).filter fun off =>
        b.nat (off + 17) ≠ 0 ∧ NameOk b off).map (direntry b))) := by
  induction n generalizing off with
  | zero =>
    apply Prog.Yields.loop_unfold
    apply Prog.Yields.pure
    have hnot : ¬ EntryOk b off := by
      intro h
      have hroom := h.1
      omega
    rw [scanRound, if_neg hnot]
    exact rfl
  | succ n ih =>
    apply Prog.Yields.loop_unfold
    apply Prog.Yields.pure
    rw [scanRound, entriesFrom]
    by_cases hok : EntryOk b off
    · have hrest := @ih (off + b.nat off) (by
        have hlt := hok.sub_lt
        omega)
      rw [if_pos hok, if_pos hok, List.filter_cons]
      by_cases hname : b.nat (off + 17) ≠ 0 ∧ NameOk b off
      · rw [if_pos (decide_eq_true hname), List.map_cons, firstNamed, List.find?_cons]
        cases hhit : nameEq foldCh (direntry b off).name name with
        | true =>
          have hfound : b.nat (off + 17) ≠ 0 ∧ NameOk b off ∧ true = true :=
            ⟨hname.1, hname.2, rfl⟩
          rw [if_pos hfound]
          exact rfl
        | false =>
          rw [if_neg fun h => Bool.false_ne_true h.2.2]
          exact hrest
      · rw [if_neg fun h => hname (of_decide_eq_true h), if_neg fun h => hname ⟨h.1, h.2.1⟩]
        exact hrest
    · rw [if_neg hok, if_neg hok]
      exact rfl

theorem pfsScanDirblock_yields (b : Buf) (name : List UInt8) :
    Prog.Yields (pfsScanDirblock b name)
      (· = if isDb b then firstNamed name (searched b) else .error .eReadError) := by
  rw [pfsScanDirblock]
  by_cases hid : be16 b 0 = idDb
  · rw [if_neg (not_not.2 hid), if_pos (show isDb b = true from beq_iff_eq.2 hid)]
    exact scan_yields b name (Nat.sub_le _ _)
  · have hnot : ¬ isDb b = true := fun h => hid (beq_iff_eq.1 h)
    rw [if_pos hid, if_neg hnot]
    exact Prog.Yields.pure rfl

theorem listEntries_yields (b : Buf) (hn : bsize - off ≤ n) (passed : List Direntry) :
    Prog.Yields (.loop (fun s => (pure (listRound b s) : Io _)) (off, passed))
      (· = passed ++ ((entriesFrom b n off).takeWhile fun off => NameOk b off).map
        (direntry b)) := by
  induction n generalizing off passed with
  | zero =>
    apply Prog.Yields.loop_unfold
    apply Prog.Yields.pure
    have hnot : ¬ EntryOk b off := by
      intro h
      have hroom := h.1
      omega
    rw [listRound, if_neg fun h => hnot h.1]
    exact (List.append_nil passed).symm
  | succ n ih =>
    apply Prog.Yields.loop_unfold
    apply Prog.Yields.pure
    rw [listRound, entriesFrom]
    dsimp only
    by_cases hok : EntryOk b off
    · rw [if_pos hok, List.takeWhile_cons]
      by_cases hname : NameOk b off
      · have hrest := @ih (off + b.nat off) (by
          have hlt := hok.sub_lt
          omega) (passed ++ [direntry b off])
        have hboth : EntryOk b off ∧ NameOk b off := ⟨hok, hname⟩
        rw [if_pos hboth, if_pos (decide_eq_true hname), List.map_cons]
        rw [List.append_assoc, List.singleton_append] at hrest
        exact hrest
      · rw [if_neg fun h => hname (of_decide_eq_true h), if_neg fun h => hname h.2]
        exact (List.append_nil passed).symm
    · rw [if_neg hok, if_neg fun h => hok h.1]
      exact (List.append_nil passed).symm

theorem takeWhile_congr {p q : α → Bool} {l : List α} (h : ∀ x ∈ l, p x = q x) :
    l.takeWhile p = l.takeWhile q := by
  induction l with
  | nil => rfl
  | cons x l ih =>
    rw [List.takeWhile_cons, List.takeWhile_cons, h x List.mem_cons_self,
      ih fun y hy => h y (List.mem_cons_of_mem x hy)]

section

variable {b c : Buf} (h : Agree bsize b c)

include h

theorem isDb_congr : isDb b = isDb c := by
  rw [isDb, isDb, Agree.be16 h (by decide)]

theorem entryOk_congr (off : Nat) : EntryOk b off ↔ EntryOk c off := by
  by_cases hroom : off + 18 < bsize
  · rw [EntryOk, EntryOk, Agree.nat h (by omega)]
  · constructor
    · exact fun hok => absurd hok.1 hroom
    · exact fun hok => absurd hok.1 hroom

theorem nameOk_congr (hok : EntryOk c off) : NameOk b off ↔ NameOk c off := by
  have hroom := hok.1
  rw [NameOk, NameOk, Agree.nat h (by omega)]

theorem direntry_congr (hok : EntryOk c off) (hname : NameOk c off) :
    direntry b off = direntry c off := by
  have hroom := hok.1
  have htype : b.nat (off + 1) = c.nat (off + 1) := Agree.nat h (by omega)
  have hanode : be32 b (off + 2) = be32 c (off + 2) := h.be32 (by omega)
  have hsize : be32 b (off + 6) = be32 c (off + 6) := h.be32 (by omega)
  have hlen : b.nat (off + 17) = c.nat (off + 17) := Agree.nat h (by omega)
  rw [direntry, direntry, htype, hanode, hsize, hlen, bytes_congr h hname]

theorem entriesFrom_congr (n off : Nat) : entriesFrom b n off = entriesFrom c n off := by
  induction n generalizing off with
  | zero => rfl
  | succ n ih =>
    rw [entriesFrom, entriesFrom]
    by_cases hok : EntryOk c off
    · have hroom := hok.1
      rw [if_pos ((entryOk_congr h off).2 hok), if_pos hok, Agree.nat h (by omega), ih]
    · rw [if_neg fun hok' => hok ((entryOk_congr h off).1 hok'), if_neg hok]

omit h in
theorem entryOk_of_mem (hoff : off ∈ entriesFrom b n start) : EntryOk b off := by
  induction n generalizing start with
  | zero => cases hoff
  | succ n ih =>
    rw [entriesFrom] at hoff
    split_ifs at hoff with hok
    · cases hoff with
      | head => exact hok
      | tail _ hoff => exact ih hoff
    · cases hoff

theorem searched_congr : searched b = searched c := by
  have hentries : entries b = entries c := entriesFrom_congr h bsize 20
  have hfilter : (entries c).filter (fun off => b.nat (off + 17) ≠ 0 ∧ NameOk b off) =
      (entries c).filter fun off => c.nat (off + 17) ≠ 0 ∧ NameOk c off := by
    apply List.filter_congr
    intro off hoff
    have hok := entryOk_of_mem hoff
    have hroom := hok.1
    have hlen : b.nat (off + 17) ≠ 0 ↔ c.nat (off + 17) ≠ 0 := by rw [Agree.nat h (by omega)]
    exact decide_eq_decide.2 (and_congr hlen (nameOk_congr h hok))
  rw [searched, searched, hentries, hfilter]
  apply List.map_congr_left
  intro off hoff
  obtain ⟨hmem, hname⟩ := List.mem_filter.1 hoff
  exact direntry_congr h (entryOk_of_mem hmem) (of_decide_eq_true hname).2

theorem listed_congr : listed b = listed c := by
  have hentries : entries b = entries c := entriesFrom_congr h bsize 20
  have htake : (entries c).takeWhile (fun off => NameOk b off) =
      (entries c).takeWhile fun off => NameOk c off := by
    apply takeWhile_congr
    intro off hoff
    exact decide_eq_decide.2 (nameOk_congr h (entryOk_of_mem hoff))
  rw [listed, listed, hentries, htake]
  apply List.map_congr_left
  intro off hoff
  have hname : decide (NameOk c off) = true := List.mem_takeWhile_imp (p := fun off => NameOk c off)
    hoff
  exact direntry_congr h (entryOk_of_mem ((List.takeWhile_sublist _).subset hoff))
    (of_decide_eq_true hname)

end

/-- Block `n`, if it is a reserved block of a kind. -/
def reserved (block : Nat → Option Buf) (id n : Nat) : Option Buf :=
  if n = 0 then none else (block n).filter fun b => be16 b 0 == id

/-- Anode `n` of a volume. -/
def anode? (block : Nat → Option Buf) (root : Buf) (n : Nat) : Option Extent :=
  if n < 99 * 125 * 41 then
    (reserved block idIb (indexPtr root n)).bind fun ib =>
      (reserved block idAb (anodePtr ib n)).map fun ab => anode ab (16 + n % 41 * 12)
  else none

/-- The blocks with the numbers `ns` up to the first one that cannot be read, and whether there is
no such block. -/
def readable (block : Nat → Option Buf) : List Nat → List Buf × Bool
  | [] => ([], true)
  | n :: ns =>
    match block n with
    | none => ([], false)
    | some b => (b :: (readable block ns).1, (readable block ns).2)

/-- The blocks of the directory with the anode `anr`, with at most `guard` anodes, up to the first
one that cannot be read. -/
def dirBlocks (block : Nat → Option Buf) (root : Buf) : Nat → Nat → List Buf
  | 0, _ => []
  | guard + 1, anr =>
    if anr = 0 then []
    else
      match anode? block root anr with
      | none => []
      | some x =>
        if x.first = 0 ∨ x.blocks = 0 then []
        else
          (readable block x.blockList).1 ++
            if (readable block x.blockList).2 then dirBlocks block root guard x.next else []

theorem reserved_eq_some {id : Nat} :
    reserved block id n = some b ↔ n ≠ 0 ∧ block n = some b ∧ be16 b 0 = id := by
  rw [reserved]
  split_ifs with hn
  · constructor
    · intro h
      cases h
    · exact fun h => absurd hn h.1
  · rw [Option.filter_eq_some_iff, beq_iff_eq]
    exact ⟨fun h => ⟨hn, h⟩, fun h => h.2⟩

theorem anode?_eq_some : anode? block root n = some x ↔ AnodeAt block root n x := by
  rw [anode?]
  constructor
  · intro h
    split_ifs at h with hn
    obtain ⟨ib, hib, h⟩ := Option.bind_eq_some_iff.1 h
    obtain ⟨ab, hab, rfl⟩ := Option.map_eq_some_iff.1 h
    obtain ⟨hindex, hib, hibId⟩ := reserved_eq_some.1 hib
    obtain ⟨hanode, hab, habId⟩ := reserved_eq_some.1 hab
    exact .slot hn hindex hib hibId hanode hab habId
  · rintro ⟨hn, hindex, hib, hibId, hanode, hab, habId⟩
    rw [if_pos hn, reserved_eq_some.2 ⟨hindex, hib, hibId⟩, Option.bind_some,
      reserved_eq_some.2 ⟨hanode, hab, habId⟩]
    rfl

theorem searchedIn_cons (b : Buf) (bs : List Buf) :
    searchedIn (b :: bs) = if isDb b then searched b ++ searchedIn bs else [] := by
  rw [searchedIn, List.takeWhile_cons]
  split_ifs
  · rfl
  · rfl

theorem searchedIn_append (h : bs.all isDb = true) (bs' : List Buf) :
    searchedIn (bs ++ bs') = searchedIn bs ++ searchedIn bs' := by
  induction bs with
  | nil => rfl
  | cons b bs ih =>
    rw [List.all_cons, Bool.and_eq_true] at h
    rw [List.cons_append, searchedIn_cons, searchedIn_cons, if_pos h.1, if_pos h.1, ih h.2,
      List.append_assoc]

theorem searchedIn_append_left (h : bs.all isDb = false) (bs' : List Buf) :
    searchedIn (bs ++ bs') = searchedIn bs := by
  induction bs with
  | nil => cases h
  | cons b bs ih =>
    rw [List.cons_append, searchedIn_cons, searchedIn_cons]
    split_ifs with hdb
    · rw [List.all_cons, hdb, Bool.true_and] at h
      rw [ih h]
    · rfl

theorem listedIn_cons (b : Buf) (bs : List Buf) :
    listedIn (b :: bs) = (if isDb b then listed b else []) ++ listedIn bs := by
  rw [listedIn, List.filter_cons]
  split_ifs
  · rfl
  · rfl

theorem listedIn_append (bs bs' : List Buf) :
    listedIn (bs ++ bs') = listedIn bs ++ listedIn bs' := by
  rw [listedIn, listedIn, listedIn, List.filter_append, List.flatMap_append]

/-- The result of a search for a name among entries. -/
def Found (name : List UInt8) (es : List Direntry) (r : Except Retcode Direntry) : Prop :=
  (∃ e, es.find? (fun e => nameEq foldCh e.name name) = some e ∧ r = .ok e) ∨
    es.find? (fun e => nameEq foldCh e.name name) = none ∧ ∃ ret, r = .error ret

theorem Found.error (name : List UInt8) (ret : Retcode) : Found name [] (.error ret) :=
  .inr ⟨rfl, ret, rfl⟩

theorem Found.append_left {es : List Direntry} (h : Found name es (.ok e))
    (es' : List Direntry) : Found name (es ++ es') (.ok e) := by
  obtain ⟨e', he, hok⟩ | ⟨-, ret, herror⟩ := h
  · left
    refine ⟨e', ?_, hok⟩
    rw [List.find?_append, he]
    rfl
  · cases herror

theorem Found.append {es : List Direntry}
    (hnone : es.find? (fun e => nameEq foldCh e.name name) = none) (h : Found name es' r) :
    Found name (es ++ es') r := by
  rw [Found, List.find?_append, hnone]
  exact h

/-- The result of the loop over the blocks of an anode. It goes on to the next anode if all blocks
are directory blocks without the name. -/
inductive FoundIn (name : List UInt8) (bs : List Buf) (all : Bool) :
    Option (Except Retcode Direntry) → Prop where
  | ends (h : Found name (searchedIn bs) r)
      (hend : (∃ e, r = .ok e) ∨ all = false ∨ bs.all isDb = false) : FoundIn name bs all (some r)
  | goes (hall : all = true) (hdb : bs.all isDb = true)
      (h : (searchedIn bs).find? (fun e => nameEq foldCh e.name name) = none) :
      FoundIn name bs all none

theorem FoundIn.cons (hdb : isDb b = true)
    (hnone : (searched b).find? (fun e => nameEq foldCh e.name name) = none)
    (h : FoundIn name bs all y) : FoundIn name (b :: bs) all y := by
  cases h with
  | ends h hend =>
    constructor
    · rw [searchedIn_cons, if_pos hdb]
      exact h.append hnone
    · rw [List.all_cons, hdb, Bool.true_and]
      exact hend
  | goes hall hdbs h =>
    constructor
    · exact hall
    · rw [List.all_cons, hdb, Bool.true_and]
      exact hdbs
    · rw [searchedIn_cons, if_pos hdb, List.find?_append, hnone]
      exact h

theorem blockList_next (x : Extent) (done ns : List Nat) (hx : x.blockList = done ++ n :: ns) :
    u32 (x.first + done.length) = n := by
  have hlen := x.length_blockList
  rw [hx, List.length_append, List.length_cons] at hlen
  have hget := getElem?_extent (i := done.length) [] [] x (by omega)
  rw [List.nil_append, List.append_nil, hx, List.length_nil, Nat.zero_add,
    List.getElem?_append_right (Nat.le_refl _), Nat.sub_self, List.getElem?_cons_zero] at hget
  exact (Option.some.inj hget).symm

section

variable {d : Disk} {loc : Nat} {block : Nat → Option Buf} (hd : d.HasBlocks loc block)
  {v : Volume} (stack : Buf)

include hd

theorem lookupBlocks_yields (hv : v.partLoc = loc) (name : List UInt8) (x : Extent)
    (done : List Nat) (hx : x.blockList = done ++ ns) :
    Prog.Yields (.loop (fun i =>
      if i < x.blocks then do
        let (ret, dblk) ← readBlock d v.partLoc (u32 (x.first + i)) stack
        lookupBlock name i ret dblk
      else pure (.inr none)) done.length)
      (FoundIn name (readable block ns).1 (readable block ns).2) := by
  have hlen := x.length_blockList
  rw [hx, List.length_append] at hlen
  induction ns generalizing done with
  | nil =>
    apply Prog.Yields.loop_unfold
    rw [if_neg (by rw [← hlen]; exact Nat.lt_irrefl _)]
    exact Prog.Yields.pure (.goes rfl rfl rfl)
  | cons n ns ih =>
    have hn := blockList_next x done ns hx
    apply Prog.Yields.loop_unfold
    rw [if_pos (by rw [List.length_cons] at hlen; omega), hv, hn]
    apply Prog.Yields.bind (hd n stack)
    rintro ⟨ret, b⟩ (⟨hret, c, hc, hagree⟩ | ⟨hret, hnone⟩)
    · dsimp only at hret hagree ⊢
      rw [lookupBlock, if_neg (not_not.2 hret), readable, hc]
      have hscan := pfsScanDirblock_yields b name
      rw [isDb_congr hagree, searched_congr hagree] at hscan
      apply Prog.Yields.bind hscan
      rintro _ rfl
      apply Prog.Yields.pure
      dsimp only
      by_cases hdb : isDb c = true
      · rw [if_pos hdb, firstNamed]
        cases hfind : (searched c).find? fun e => nameEq foldCh e.name name with
        | some e =>
          refine .ends ?_ (.inl ⟨e, rfl⟩)
          rw [searchedIn_cons, if_pos hdb]
          exact Found.append_left (.inl ⟨e, hfind, rfl⟩) _
        | none =>
          have hrest := ih (done ++ [n]) (by rw [hx, List.append_assoc]; rfl) (by
            rw [← hlen, List.length_append, List.length_singleton, List.length_cons]
            omega)
          rw [List.length_append, List.length_singleton, hv] at hrest
          exact hrest.mono fun y hy => hy.cons hdb hfind
      · rw [if_neg hdb]
        refine .ends ?_ (.inr (.inr ?_))
        · rw [searchedIn_cons, if_neg hdb]
          exact .error name _
        · rw [Bool.not_eq_true] at hdb
          rw [List.all_cons, hdb]
          rfl
    · dsimp only at hret ⊢
      rw [lookupBlock, if_pos hret, readable, hnone]
      exact Prog.Yields.pure (.ends (.error name ret) (.inr (.inl rfl)))

theorem listBlocks_yields (hv : v.partLoc = loc) (x : Extent) (done : List Nat)
    (hx : x.blockList = done ++ ns) (passed : List Direntry) :
    Prog.Yields (.loop (fun s =>
      if s.1 < x.blocks then do
        let (ret, dblk) ← readBlock d v.partLoc (u32 (x.first + s.1)) stack
        listBlock s.1 s.2 ret dblk
      else pure (.inr (true, s.2))) (done.length, passed))
      (· = ((readable block ns).2, passed ++ listedIn (readable block ns).1)) := by
  have hlen := x.length_blockList
  rw [hx, List.length_append] at hlen
  induction ns generalizing done passed with
  | nil =>
    apply Prog.Yields.loop_unfold
    rw [if_neg (by rw [← hlen]; exact Nat.lt_irrefl _)]
    exact Prog.Yields.pure (Prod.ext rfl (List.append_nil passed).symm)
  | cons n ns ih =>
    rw [List.length_cons] at hlen
    have hn := blockList_next x done ns hx
    apply Prog.Yields.loop_unfold
    rw [if_pos (by dsimp only; omega), hv, hn]
    apply Prog.Yields.bind (hd n stack)
    rintro ⟨ret, b⟩ (⟨hret, c, hc, hagree⟩ | ⟨hret, hnone⟩)
    · dsimp only at hret hagree ⊢
      have hid : be16 b 0 = be16 c 0 := Agree.be16 hagree (by decide)
      have hrest (passed' : List Direntry) := ih (done ++ [n]) (by rw [hx, List.append_assoc]; rfl)
        passed' (by
          rw [List.length_append, List.length_singleton]
          omega)
      rw [List.length_append, List.length_singleton, hv] at hrest
      rw [listBlock, if_neg (not_not.2 hret), hid, readable, hc]
      dsimp only
      rw [listedIn_cons, ← List.append_assoc]
      by_cases hdb : be16 c 0 = idDb
      · rw [if_neg (not_not.2 hdb), if_pos (show isDb c = true from beq_iff_eq.2 hdb)]
        have hlist : Prog.Yields (listEntries b passed) (· = passed ++ listed b) :=
          listEntries_yields b (Nat.sub_le _ _) passed
        rw [listed_congr hagree] at hlist
        apply Prog.Yields.bind hlist
        rintro _ rfl
        exact Prog.Yields.pure (hrest (passed ++ listed c))
      · have hnot : ¬ isDb c = true := fun h => hdb (beq_iff_eq.1 h)
        rw [if_pos hdb, if_neg hnot, List.append_nil]
        exact Prog.Yields.pure (hrest passed)
    · dsimp only at hret ⊢
      rw [listBlock, if_pos hret, readable, hnone]
      exact Prog.Yields.pure (Prod.ext rfl (List.append_nil passed).symm)

variable (hv : IsOpen v loc root)

include hv

theorem pfsGetAnode_anode? (n : Nat) :
    Prog.Yields (pfsGetAnode d stack v n) fun r =>
      match anode? block root n with
      | some x => r = .ok x
      | none => ∃ ret, r = .error ret := by
  apply (pfsGetAnode_answers hd stack hv n).mono
  rintro r (⟨x, rfl, hx⟩ | ⟨ret, rfl, hnone, -⟩)
  · rw [anode?_eq_some.2 hx]
  · cases hanode : anode? block root n with
    | some x => exact absurd (anode?_eq_some.1 hanode) (hnone x)
    | none => exact ⟨ret, rfl⟩

/-- A name is looked for in the blocks of the directory up to the first one that is not a directory
block. -/
theorem pfsDirLookup_yields (anr : Nat) (name : List UInt8) (hguard : g + k = 4096) :
    Prog.Yields (.loop (lookupRound d stack v name) (anr, g))
      (Found name (searchedIn (dirBlocks block root k anr))) := by
  induction k generalizing anr g with
  | zero =>
    apply Prog.Yields.loop_unfold
    rw [lookupRound, if_neg (by dsimp only; omega)]
    exact Prog.Yields.pure (.error name _)
  | succ k ih =>
    apply Prog.Yields.loop_unfold
    rw [lookupRound, dirBlocks]
    by_cases hanr : anr = 0
    · rw [if_neg fun h => h.1 hanr, if_pos hanr]
      exact Prog.Yields.pure (.error name _)
    · rw [if_pos ⟨hanr, by dsimp only; omega⟩, if_neg hanr]
      apply Prog.Yields.bind (pfsGetAnode_anode? hd stack hv anr)
      intro r hr
      cases hanode : anode? block root anr with
      | none =>
        rw [hanode] at hr
        obtain ⟨ret, rfl⟩ := hr
        exact Prog.Yields.pure (.error name ret)
      | some x =>
        rw [hanode] at hr
        obtain rfl := hr
        dsimp only
        rw [lookupAnode]
        by_cases hx : x.first = 0 ∨ x.blocks = 0
        · rw [if_pos hx, if_pos hx]
          exact Prog.Yields.pure (.error name _)
        · rw [if_neg hx, if_neg hx]
          have hblocks := lookupBlocks_yields hd stack hv.partLoc name x [] (List.nil_append _).symm
          apply Prog.Yields.bind hblocks
          intro y hy
          apply Prog.Yields.pure
          cases hy with
          | ends h hend =>
            show Found name _ _
            obtain ⟨e, rfl⟩ | hcut | hdb := hend
            · by_cases hdb : (readable block x.blockList).1.all isDb = true
              · rw [searchedIn_append hdb]
                exact h.append_left _
              · rw [Bool.not_eq_true] at hdb
                rw [searchedIn_append_left hdb]
                exact h
            · rw [if_neg (by rw [hcut]; decide), List.append_nil]
              exact h
            · rw [searchedIn_append_left hdb]
              exact h
          | goes hall hdb hnone =>
            rw [searchedIn_append hdb, if_pos hall]
            exact (ih x.next (by omega)).mono fun r hr => hr.append hnone

/-- All directory blocks are listed up to the first block that cannot be read. -/
theorem pfsListDir_yields (anr : Nat) (hguard : g + k = 4096) (passed : List Direntry) :
    Prog.Yields (.loop (listingRound d stack v) ⟨anr, g, passed⟩)
      (· = passed ++ listedIn (dirBlocks block root k anr)) := by
  induction k generalizing anr g passed with
  | zero =>
    apply Prog.Yields.loop_unfold
    rw [listingRound, if_neg (by dsimp only; omega)]
    exact Prog.Yields.pure (List.append_nil passed).symm
  | succ k ih =>
    apply Prog.Yields.loop_unfold
    rw [listingRound, dirBlocks]
    by_cases hanr : anr = 0
    · rw [if_neg fun h => h.1 hanr, if_pos hanr]
      exact Prog.Yields.pure (List.append_nil passed).symm
    · rw [if_pos ⟨hanr, by dsimp only; omega⟩, if_neg hanr]
      apply Prog.Yields.bind (pfsGetAnode_anode? hd stack hv anr)
      intro r hr
      cases hanode : anode? block root anr with
      | none =>
        rw [hanode] at hr
        obtain ⟨ret, rfl⟩ := hr
        exact Prog.Yields.pure (List.append_nil passed).symm
      | some x =>
        rw [hanode] at hr
        obtain rfl := hr
        dsimp only
        rw [listAnode]
        by_cases hx : x.first = 0 ∨ x.blocks = 0
        · rw [if_pos hx, if_pos hx]
          exact Prog.Yields.pure (List.append_nil passed).symm
        · rw [if_neg hx, if_neg hx]
          have hblocks := listBlocks_yields hd stack hv.partLoc x [] (List.nil_append _).symm passed
          apply Prog.Yields.bind hblocks
          rintro _ rfl
          apply Prog.Yields.pure
          dsimp only
          rw [listedIn_append, ← List.append_assoc]
          cases hall : (readable block x.blockList).2 with
          | true =>
            rw [if_pos rfl, if_pos rfl]
            exact ih x.next (by omega) _
          | false =>
            rw [if_neg Bool.false_ne_true, if_neg Bool.false_ne_true]
            exact (List.append_nil _).symm

end

end Pfs

end Pegasos2.Fs
