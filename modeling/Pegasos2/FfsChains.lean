import Pegasos2.FfsPaths
import Pegasos2.FileChains
import Pegasos2.Links

namespace Pegasos2.Fs
open Program
open PartitionPkg (Agree)
open Links
open Relation
set_option autoImplicit true

namespace Ffs

/-- Buffers that agree behind their first `n` bytes. -/
def SameTail (n : Nat) (b c : Buf) : Prop := ∀ i, n ≤ i → b i = c i

/-- A buffer after a read of block `n` into it, if the block can be read. -/
def Volume.fetch (v : Volume) (d : Drive) (buf : Buf) (n : Nat) : Option Buf :=
  match d.read 0 (u64 (v.partLoc + n * v.bsize)) v.bsize with
  | .ok data => some (buf.copy 0 data 0 v.bsize)
  | .fail _ _ => none

theorem copy_congr (h : SameTail n b c) (data : Buf) : b.copy 0 data 0 n = c.copy 0 data 0 n := by
  funext i
  rw [Buf.copy, Buf.copy]
  split_ifs with hi
  · rfl
  · exact h i (by omega)

section

variable {v : Volume} {d : Drive} {stack : Buf}

theorem fetch_sameTail (h : v.fetch d stack n = some b) : SameTail v.bsize b stack := by
  intro i hi
  rw [Volume.fetch] at h
  cases hread : d.read 0 (u64 (v.partLoc + n * v.bsize)) v.bsize with
  | ok data =>
    rw [hread] at h
    obtain rfl := Option.some.inj h
    rw [Buf.copy, if_neg (by omega)]
  | fail fault left =>
    rw [hread] at h
    cases h

theorem readBlock_fetches (h : SameTail v.bsize buf stack) (n : Nat) :
    Prog.Yields (v.readBlock d.toDisk n buf) fun x =>
      (∃ b, v.fetch d stack n = some b ∧ x = (.noError, b)) ∨
        IsError x.1 ∧ v.fetch d stack n = none := by
  intro w
  rw [Volume.fetch]
  obtain ⟨data, hread, hrun⟩ | ⟨fault, left, hread, hrun⟩ :=
    filesysReadBytes_halts d.toDisk (u64 (v.partLoc + n * v.bsize)) v.bsize buf w
  · rw [d.steady w.reads 0] at hread
    rw [hread]
    exact ⟨_, _, hrun, .inl ⟨_, rfl, Prod.ext rfl (copy_congr h data)⟩⟩
  · rw [d.steady w.reads 0] at hread
    rw [hread]
    exact ⟨_, _, hrun, .inr ⟨fault.isError, rfl⟩⟩

end

section

variable (v : Volume) (fetch : Nat → Option Buf)

/-- The link of block `n` in a hash chain that is searched for a name. -/
def hashNext (name : List UInt8) (n : Nat) : Option Nat :=
  if n = 0 then none
  else (fetch n).bind fun b =>
    if be32 b 0 ≠ tHeader ∨ nameEq v.isIntl (extractName v.bsize v.isLnfs b) name then none
    else some (be32 b (offNextHash v.bsize))

/-- The header block `n`, if it has the name. -/
def hashHit (name : List UInt8) (n : Nat) : Option Buf :=
  if n = 0 then none
  else (fetch n).filter fun b =>
    be32 b 0 == tHeader && nameEq v.isIntl (extractName v.bsize v.isLnfs b) name

/-- The link of block `n` in a hash chain that is listed. -/
def listNext (n : Nat) : Option Nat :=
  if n = 0 then none else (fetch n).map fun b => be32 b (offNextHash v.bsize)

/-- The start of a hash chain. -/
def bucket (dir : Buf) (i : Nat) : Nat := be32 dir (htOffset + i * 4)

end

section

variable {v : Volume} {d : Drive} {stack : Buf}

theorem hashNext_lt {fetch : Nat → Option Buf} (h : hashNext v fetch name n = some m) :
    m < 2 ^ 32 := by
  rw [hashNext] at h
  split_ifs at h
  obtain ⟨b, -, h⟩ := Option.bind_eq_some_iff.1 h
  split_ifs at h
  obtain rfl := Option.some.inj h
  exact be32_lt b _

theorem listNext_lt {fetch : Nat → Option Buf} (h : listNext v fetch n = some m) : m < 2 ^ 32 := by
  rw [listNext] at h
  split_ifs at h
  obtain ⟨b, -, rfl⟩ := Option.map_eq_some_iff.1 h
  exact be32_lt b _

theorem chainRound_follows (name : List UInt8) (s : Nat × Buf) (h : SameTail v.bsize s.2 stack) :
    Prog.Yields (chainRound d.toDisk v name s)
      (Links.Round (hashNext v (v.fetch d stack) name) (fun s => SameTail v.bsize s.2 stack)
        Prod.fst (fun e x => (∃ b, hashHit v (v.fetch d stack) name e = some b ∧ x = (e, b)) ∨
          hashHit v (v.fetch d stack) name e = none ∧ x.1 = 0) s.1) := by
  rw [chainRound]
  by_cases hzero : s.1 = 0
  · rw [if_pos hzero]
    apply Prog.Yields.pure
    refine ⟨by rw [hashNext, if_pos hzero], .inr ⟨by rw [hashHit, if_pos hzero], rfl⟩⟩
  · rw [if_neg hzero]
    apply Prog.Yields.bind (readBlock_fetches h s.1)
    rintro ⟨ret, b⟩ (⟨b', hb, heq⟩ | ⟨hret, hnone⟩)
    · obtain ⟨rfl, rfl⟩ := Prod.mk.inj heq
      apply Prog.Yields.pure
      by_cases hheader : be32 b 0 = tHeader
      · rw [if_neg (fun hor => hor.elim (fun hne => hne rfl) fun hne => hne hheader)]
        cases hname : nameEq v.isIntl (extractName v.bsize v.isLnfs b) name with
        | true =>
          rw [if_pos rfl]
          refine ⟨?_, .inl ⟨b, ?_, rfl⟩⟩
          · rw [hashNext, if_neg hzero, hb, Option.bind_some, if_pos (.inr hname)]
          · rw [hashHit, if_neg hzero, hb, Option.filter_some, hheader, hname]
            rfl
        | false =>
          rw [if_neg Bool.false_ne_true]
          refine ⟨fetch_sameTail hb, ?_⟩
          have hnot : ¬ (be32 b 0 ≠ tHeader ∨
              nameEq v.isIntl (extractName v.bsize v.isLnfs b) name = true) := by
            rw [hname]
            exact fun hor => hor.elim (fun hne => hne hheader) Bool.false_ne_true
          rw [hashNext, if_neg hzero, hb, Option.bind_some, if_neg hnot]
      · rw [if_pos (.inr hheader)]
        refine ⟨?_, .inr ⟨?_, rfl⟩⟩
        · rw [hashNext, if_neg hzero, hb, Option.bind_some, if_pos (.inl hheader)]
        · rw [hashHit, if_neg hzero, hb, Option.filter_some, beq_eq_false_iff_ne.2 hheader]
          rfl
    · apply Prog.Yields.pure
      dsimp only at hret ⊢
      rw [if_pos (.inl hret.1)]
      refine ⟨?_, .inr ⟨?_, rfl⟩⟩
      · rw [hashNext, if_neg hzero, hnone, Option.bind_none]
      · rw [hashHit, if_neg hzero, hnone, Option.filter_none]

theorem hashNext_ends_iff (name : List UInt8) (n : Nat) :
    (∃ e, EndsAt (hashNext v (v.fetch d stack) name) n e) ↔
      Acyclic (hashNext v (v.fetch d stack) name) n :=
  ends_iff_acyclic (Set.finite_lt_nat (2 ^ 32)) (fun _ _ h => hashNext_lt h) n

theorem lookupInHash_ends_iff (h : SameTail v.bsize scratch stack) (dir : Buf)
    (name : List UInt8) (w : World) :
    Prog.Ends (lookupInHash d.toDisk v dir name scratch) w ↔
      Acyclic (hashNext v (v.fetch d stack) name) (bucket dir (nameHash v.isIntl v.bsize name)) :=
  (loop_ends_iff (chainRound_follows name) h w).trans (hashNext_ends_iff name _)

theorem hashHit_fetch {fetch : Nat → Option Buf} (h : hashHit v fetch name n = some b) :
    n ≠ 0 ∧ fetch n = some b := by
  rw [hashHit] at h
  split_ifs at h with hzero
  exact ⟨hzero, (Option.filter_eq_some_iff.1 h).1⟩

end

/-- A directory of a path, with the number of its block, and what is left of the path. -/
structure Place where
  number : Nat
  dir : Buf
  cur : List Char

/-- A round of the path loop searches the directory. -/
def Place.Searches (p : Place) : Prop :=
  component p.cur ≠ [] ∧ (component p.cur).length ≤ 107

/-- Where the search of the directory begins. -/
def Place.slot (v : Volume) (p : Place) : Nat :=
  bucket p.dir (nameHash v.isIntl v.bsize (component p.cur))

section

variable (v : Volume) (fetch : Nat → Option Buf)

/-- The chain that the directory is searched along comes to no cycle. -/
def Place.Sound (p : Place) : Prop :=
  p.Searches → Acyclic (hashNext v fetch (component p.cur)) (p.slot v)

/-- The search of the directory finds the header block `n`, which is `b`. -/
structure Finds (p : Place) (n : Nat) (b : Buf) : Prop where
  searches : p.Searches
  ends : EndsAt (hashNext v fetch (component p.cur)) (p.slot v) n
  hit : hashHit v fetch (component p.cur) n = some b

/-- A round of the path loop that leads to another one. -/
inductive PathStep : Place → Place → Prop where
  | skip (hcur : p.cur ≠ []) (hempty : component p.cur = []) :
    PathStep p { p with cur := (fromSep p.cur).tail }
  | enter (h : Finds v fetch p n b) (hrest : fromSep p.cur ≠ []) (hdir : IsDir v b) :
    PathStep p ⟨n, b, (fromSep p.cur).tail⟩

/-- The last round of the path loop has the header block `n`, which is `b`. -/
inductive Names : Place → Nat → Buf → Prop where
  | here (hcur : p.cur = []) : Names p p.number p.dir
  | last (h : Finds v fetch p n b) (hrest : fromSep p.cur = []) : Names p n b

/-- The path leads from the place `p` to the header block `n`, which is `b`. -/
def Leads (p : Place) (n : Nat) (b : Buf) : Prop :=
  ∃ q, ReflTransGen (PathStep v fetch) p q ∧ Names v fetch q n b

/-- No chain that the path is searched along comes to a cycle. -/
def Searched (p : Place) : Prop :=
  ∀ q, ReflTransGen (PathStep v fetch) p q → q.Sound v fetch

variable {v fetch} {p q : Place}

theorem Place.Searches.ne_nil (h : p.Searches) : p.cur ≠ [] := by
  intro hnil
  apply h.1
  rw [hnil]
  rfl

theorem Finds.unique (h : Finds v fetch p n b) (h' : Finds v fetch p n' b') : n = n' ∧ b = b' := by
  obtain rfl := h.ends.unique h'.ends
  exact ⟨rfl, Option.some.inj (h.hit.symm.trans h'.hit)⟩

theorem PathStep.unique (h : PathStep v fetch p q) (h' : PathStep v fetch p q') : q = q' := by
  cases h with
  | skip hcur hempty =>
    cases h' with
    | skip => rfl
    | enter hfinds => exact absurd hempty hfinds.searches.1
  | enter hfinds =>
    cases h' with
    | skip hcur hempty => exact absurd hempty hfinds.searches.1
    | enter hfinds' =>
      obtain ⟨rfl, rfl⟩ := hfinds.unique hfinds'
      rfl

theorem PathStep.length_lt (h : PathStep v fetch p q) : q.cur.length < p.cur.length := by
  cases h with
  | skip hcur hempty => exact length_tail_fromSep_lt hcur
  | enter hfinds hrest hdir => exact length_tail_fromSep_lt hfinds.searches.ne_nil

theorem PathStep.not_names (h : PathStep v fetch p q) : ¬ Names v fetch p n b := by
  intro hnames
  cases h with
  | skip hcur hempty =>
    cases hnames with
    | here hnil => exact hcur hnil
    | last hfinds => exact hfinds.searches.1 hempty
  | enter hfinds hrest hdir =>
    cases hnames with
    | here hnil => exact hfinds.searches.ne_nil hnil
    | last _ hlast => exact hrest hlast

theorem PathStep.leads_iff (h : PathStep v fetch p q) :
    Leads v fetch p n b ↔ Leads v fetch q n b := by
  constructor
  · rintro ⟨r, hreach, hnames⟩
    cases hreach.cases_head with
    | inl heq =>
      obtain rfl := heq
      exact absurd hnames h.not_names
    | inr hstep =>
      obtain ⟨q', hstep, hrest⟩ := hstep
      obtain rfl := h.unique hstep
      exact ⟨r, hrest, hnames⟩
  · rintro ⟨r, hreach, hnames⟩
    exact ⟨r, .head h hreach, hnames⟩

theorem leads_iff_of_last (h : ∀ q, ¬ PathStep v fetch p q) :
    Leads v fetch p n b ↔ Names v fetch p n b := by
  constructor
  · rintro ⟨r, hreach, hnames⟩
    cases hreach.cases_head with
    | inl heq =>
      obtain rfl := heq
      exact hnames
    | inr hstep =>
      obtain ⟨q, hstep, -⟩ := hstep
      exact absurd hstep (h q)
  · exact fun hnames => ⟨p, .refl, hnames⟩

theorem Searched.here (h : Searched v fetch p) : p.Sound v fetch := h p .refl

theorem PathStep.searched (h : PathStep v fetch p q) (hp : p.Sound v fetch)
    (hq : Searched v fetch q) : Searched v fetch p := by
  intro r hreach
  cases hreach.cases_head with
  | inl heq =>
    obtain rfl := heq
    exact hp
  | inr hstep =>
    obtain ⟨q', hstep, hrest⟩ := hstep
    obtain rfl := h.unique hstep
    exact hq r hrest

theorem searched_of_last (h : ∀ q, ¬ PathStep v fetch p q) (hp : p.Sound v fetch) :
    Searched v fetch p := by
  intro r hreach
  cases hreach.cases_head with
  | inl heq =>
    obtain rfl := heq
    exact hp
  | inr hstep =>
    obtain ⟨q, hstep, -⟩ := hstep
    exact absurd hstep (h q)

end

section

variable {v : Volume} {d : Drive} {stack : Buf}

/-- A state of the path loop at a place. -/
structure AtPlace (v : Volume) (stack : Buf) (p : Place) (s : PathPos) : Prop where
  number : s.currentBlock = p.number
  dir : s.htBuf = p.dir
  cur : s.cur = p.cur
  tail : SameTail v.bsize s.scratch stack
  held : component p.cur = [] → s.scratch = p.dir

/-- What a round of the path loop leaves: a state at the next place, or the header block that the
path leads to. -/
def Walked (v : Volume) (d : Drive) (stack : Buf) (p : Place) : PathPos ⊕ (Nat × Buf) → Prop
  | .inl s => ∃ q, PathStep v (v.fetch d stack) p q ∧ AtPlace v stack q s
  | .inr x => (∀ q, ¬ PathStep v (v.fetch d stack) p q) ∧
      ∀ n b, n ≠ 0 → (Names v (v.fetch d stack) p n b ↔ x = (n, b))

theorem lookupInHash_yields (h : SameTail v.bsize scratch stack) (dir : Buf) (name : List UInt8)
    (hacyclic : Acyclic (hashNext v (v.fetch d stack) name)
      (bucket dir (nameHash v.isIntl v.bsize name))) :
    Prog.Yields (lookupInHash d.toDisk v dir name scratch) fun x =>
      ∃ e, EndsAt (hashNext v (v.fetch d stack) name)
          (bucket dir (nameHash v.isIntl v.bsize name)) e ∧
        ((∃ b, hashHit v (v.fetch d stack) name e = some b ∧ x = (e, b)) ∨
          hashHit v (v.fetch d stack) name e = none ∧ x.1 = 0) := by
  obtain ⟨e, he⟩ := (hashNext_ends_iff name _).2 hacyclic
  apply (loop_yields (chainRound_follows name) he h rfl).mono
  intro x hx
  exact ⟨e, he, hx⟩

theorem isDir_iff_not (b : Buf) : ¬ IsDir v b ↔
    be32 b (offSecType v.bsize) ≠ stUserdir ∧ be32 b (offSecType v.bsize) ≠ stRoot := by
  rw [IsDir, not_or]

theorem Finds.walked {p : Place} (h : Finds v (v.fetch d stack) p n b) :
    Walked v d stack p (PathPos.next v (fromSep p.cur) n b) := by
  obtain ⟨hne, hb⟩ := hashHit_fetch h.hit
  rw [PathPos.next, if_neg hne]
  by_cases hlast : fromSep p.cur = []
  · rw [if_pos hlast]
    constructor
    · intro q hstep
      exact hstep.not_names (.last h hlast)
    · intro m c hm
      constructor
      · intro hnames
        cases hnames with
        | here hnil => exact absurd hnil h.searches.ne_nil
        | last h' =>
          obtain ⟨rfl, rfl⟩ := h.unique h'
          rfl
      · intro heq
        obtain ⟨rfl, rfl⟩ := Prod.mk.inj heq
        exact .last h hlast
  · rw [if_neg hlast]
    by_cases hdir : IsDir v b
    · rw [if_neg fun hno => (isDir_iff_not b).2 hno hdir]
      exact ⟨_, .enter h hlast hdir, rfl, rfl, rfl, fetch_sameTail hb, fun _ => rfl⟩
    · rw [if_pos ((isDir_iff_not b).1 hdir)]
      constructor
      · intro q hstep
        cases hstep with
        | skip hcur hempty => exact h.searches.1 hempty
        | enter h' hrest hdir' =>
          obtain ⟨rfl, rfl⟩ := h.unique h'
          exact hdir hdir'
      · intro m c hm
        constructor
        · intro hnames
          cases hnames with
          | here hnil => exact absurd hnil h.searches.ne_nil
          | last _ hrest => exact absurd hrest hlast
        · intro heq
          exact absurd (Prod.mk.inj heq).1.symm hm

/-- A path that comes to a directory without the component leads nowhere. -/
theorem walked_nowhere {p : Place} (hcur : p.cur ≠ []) (hname : component p.cur ≠ [])
    (hno : ∀ n b, ¬ Finds v (v.fetch d stack) p n b) {x : Nat × Buf} (hx : x.1 = 0) :
    Walked v d stack p (.inr x) := by
  constructor
  · intro q hstep
    cases hstep with
    | skip _ hempty => exact hname hempty
    | enter h => exact hno _ _ h
  · intro n b hn
    constructor
    · intro hnames
      cases hnames with
      | here hnil => exact absurd hnil hcur
      | last h => exact absurd h (hno _ _)
    · intro heq
      rw [heq] at hx
      exact absurd hx hn

theorem pathRound_walks {p : Place} (hs : AtPlace v stack p s)
    (hsound : p.Sound v (v.fetch d stack)) :
    Prog.Yields (pathRound d.toDisk v s) (Walked v d stack p) := by
  obtain ⟨htBuf, cur, number, scratch⟩ := s
  obtain ⟨rfl, rfl, rfl, htail, hheld⟩ := hs
  rw [pathRound]
  dsimp only at htail hheld ⊢
  by_cases hcur : p.cur = []
  · rw [if_pos hcur]
    apply Prog.Yields.pure
    constructor
    · intro q hstep
      exact hstep.not_names (.here hcur)
    · intro n b hn
      have hscratch : scratch = p.dir := hheld (by rw [hcur]; rfl)
      constructor
      · intro hnames
        cases hnames with
        | here => rw [hscratch]
        | last h => exact absurd hcur h.searches.ne_nil
      · intro heq
        obtain ⟨rfl, rfl⟩ := Prod.mk.inj heq
        rw [hscratch]
        exact .here hcur
  · rw [if_neg hcur]
    by_cases hempty : component p.cur = []
    · rw [if_pos hempty]
      exact Prog.Yields.pure
        ⟨_, .skip hcur hempty, rfl, rfl, rfl, htail, fun _ => hheld hempty⟩
    · rw [if_neg hempty]
      by_cases hlong : 107 < (component p.cur).length
      · rw [if_pos hlong]
        apply Prog.Yields.pure
        apply walked_nowhere hcur hempty ?_ rfl
        intro n b h
        exact absurd h.searches.2 (Nat.not_le.2 hlong)
      · rw [if_neg hlong]
        have hsearches : p.Searches := ⟨hempty, Nat.not_lt.1 hlong⟩
        apply Prog.Yields.bind (lookupInHash_yields htail p.dir _ (hsound hsearches))
        rintro ⟨n, b⟩ ⟨e, hends, hresult⟩
        apply Prog.Yields.pure
        cases hresult with
        | inl hhit =>
          obtain ⟨b', hhit, heq⟩ := hhit
          obtain ⟨rfl, rfl⟩ := Prod.mk.inj heq
          exact Finds.walked ⟨hsearches, hends, hhit⟩
        | inr hmiss =>
          obtain ⟨hmiss, rfl⟩ := hmiss
          rw [PathPos.next, if_pos rfl]
          apply walked_nowhere hcur hempty ?_ rfl
          intro n b h
          obtain rfl := h.ends.unique hends
          cases hmiss.symm.trans h.hit

theorem pathRound_sound {p : Place} (hs : AtPlace v stack p s)
    (h : Prog.Ends (pathRound d.toDisk v s) w) : p.Sound v (v.fetch d stack) := by
  intro hsearches
  obtain ⟨htBuf, cur, number, scratch⟩ := s
  obtain ⟨rfl, rfl, rfl, htail, -⟩ := hs
  rw [pathRound] at h
  dsimp only at h htail
  rw [if_neg hsearches.ne_nil, if_neg hsearches.1, if_neg (Nat.not_lt.2 hsearches.2)] at h
  obtain ⟨x, w', hrun⟩ := h
  obtain ⟨y, w₁, hlookup, -⟩ := hrun.of_bind
  exact (lookupInHash_ends_iff htail p.dir _ w).1 hlookup.ends

/-- The path loop gives the header block that the path leads to, if it gives one. -/
theorem pathLoop_leads {p : Place} (hs : AtPlace v stack p s)
    (h : Searched v (v.fetch d stack) p) :
    Prog.Yields (.loop (pathRound d.toDisk v) s) fun x =>
      ∀ n b, n ≠ 0 → (Leads v (v.fetch d stack) p n b ↔ x = (n, b)) := by
  induction hm : p.cur.length using Nat.strongRecOn generalizing p s with
  | ind m ih =>
    apply Prog.Yields.loop_unfold
    apply (pathRound_walks hs h.here).mono
    intro x hx
    cases x with
    | inl s' =>
      obtain ⟨q, hstep, hs'⟩ := hx
      have hq : Searched v (v.fetch d stack) q := fun r hr => h r (.head hstep hr)
      apply (ih _ (hm ▸ hstep.length_lt) hs' hq rfl).mono
      intro y hy n b hn
      rw [hstep.leads_iff]
      exact hy n b hn
    | inr y =>
      intro n b hn
      rw [leads_iff_of_last hx.1]
      exact hx.2 n b hn

theorem pathLoop_searched {p : Place} (hs : AtPlace v stack p s)
    (h : Prog.Ends (.loop (pathRound d.toDisk v) s) w) : Searched v (v.fetch d stack) p := by
  induction hm : p.cur.length using Nat.strongRecOn generalizing p s w with
  | ind m ih =>
    obtain ⟨y, w', hrun⟩ := h
    have hround : Prog.Ends (pathRound d.toDisk v s) w := by
      obtain hdone | ⟨s', w₁, hnext, -⟩ := hrun.of_loop
      · exact hdone.ends
      · exact hnext.ends
    have hsound := pathRound_sound hs hround
    obtain ⟨x, w₂, hx, hwalked⟩ := pathRound_walks hs hsound w
    cases x with
    | inl s' =>
      obtain ⟨q, hstep, hs'⟩ := hwalked
      have hrest := (Prog.Halts.loop_iff hx).1 hrun
      exact hstep.searched hsound (ih _ (hm ▸ hstep.length_lt) hs' hrest.ends rfl)
    | inr y => exact searched_of_last hwalked.1 hsound

/-- The first place of a path. -/
def root (v : Volume) (path : List Char) : Place := ⟨v.rootBlock, v.rootbuf, path.dropWhile isSep⟩

/-- The path leads to the header block `n`, which is `b`. An empty path leads to the root. -/
def Target (v : Volume) (d : Drive) (stack : Buf) (path : List Char) (n : Nat) (b : Buf) : Prop :=
  if path.dropWhile isSep = [] then n = v.rootBlock ∧ b = stack.copy 0 v.rootbuf 0 v.bsize
  else Leads v (v.fetch d stack) (root v path) n b

theorem root_atPlace {path : List Char} (h : path.dropWhile isSep ≠ []) :
    AtPlace v stack (root v path) ⟨v.rootbuf, path.dropWhile isSep, v.rootBlock, stack⟩ where
  number := rfl
  dir := rfl
  cur := rfl
  tail _ _ := rfl
  held hempty := absurd hempty (component_dropWhile h)

theorem walkPath_targets (h : Searched v (v.fetch d stack) (root v path)) :
    Prog.Yields (walkPath d.toDisk v path stack) fun x =>
      ∀ n b, n ≠ 0 → (Target v d stack path n b ↔ x = (n, b)) := by
  rw [walkPath]
  by_cases hpath : path.dropWhile isSep = []
  · rw [if_pos hpath]
    apply Prog.Yields.pure
    intro n b _
    rw [Target, if_pos hpath, Prod.mk.injEq, eq_comm, eq_comm (b := b)]
  · rw [if_neg hpath]
    apply (pathLoop_leads (root_atPlace hpath) h).mono
    intro x hx n b hn
    rw [Target, if_neg hpath]
    exact hx n b hn

theorem root_searched_of_nil {fetch : Nat → Option Buf} (h : path.dropWhile isSep = []) :
    Searched v fetch (root v path) := by
  apply searched_of_last
  · intro q hstep
    cases hstep with
    | skip hcur => exact hcur h
    | enter hfinds => exact hfinds.searches.ne_nil h
  · intro hsearches
    exact absurd h hsearches.ne_nil

theorem walkPath_searched (h : Prog.Ends (walkPath d.toDisk v path stack) w) :
    Searched v (v.fetch d stack) (root v path) := by
  rw [walkPath] at h
  by_cases hpath : path.dropWhile isSep = []
  · exact root_searched_of_nil hpath
  · rw [if_neg hpath] at h
    exact pathLoop_searched (root_atPlace hpath) h

end

end Ffs

end Pegasos2.Fs
