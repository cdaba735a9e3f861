import Pegasos2.ByteFields
import Pegasos2.Iso9660Compat

namespace Pegasos2.Fs
open Program
set_option autoImplicit true

namespace Iso

/-- A path up to its first semicolon. -/
def cut (path : List Char) : List Char := path.takeWhile (· != ';')

theorem cut_cons (h : c ≠ ';') (l : List Char) : cut (c :: l) = c :: cut l :=
  List.takeWhile_cons_of_pos (p := (· != ';')) (bne_iff_ne.2 h)

theorem cut_append (h : ';' ∉ l) : cut (l ++ l') = l ++ cut l' := by
  apply List.takeWhile_append_of_pos
  intro c hc
  exact bne_iff_ne.2 fun he => h (he ▸ hc)

theorem cut_append_left (h : ';' ∈ l) (l' : List Char) : cut (l ++ l') = cut l := by
  induction l with
  | nil => exact absurd h List.not_mem_nil
  | cons c l ih =>
    by_cases hc : c = ';'
    · subst hc
      rfl
    · have hl : ';' ∈ l := (List.mem_cons.1 h).resolve_left (Ne.symm hc)
      rw [List.cons_append, cut_cons hc, cut_cons hc, ih hl]

theorem not_mem_cut (path : List Char) : ';' ∉ cut path := by
  intro h
  have hall := List.all_takeWhile (l := path) (p := (· != ';'))
  exact absurd (List.all_eq_true.1 hall _ h) (by decide)

theorem mem_of_mem_cut (h : c ∈ cut path) : c ∈ path := List.takeWhile_subset _ h

theorem separator_ne (path : List Char) : separator path ≠ ';' := by
  rw [separator]
  by_cases h : '/' ∈ path
  · rw [if_pos h]
    decide
  · rw [if_neg h]
    decide

theorem nextName_append (hsep : separator (l ++ c :: l') = c) (h : c ∉ l) :
    nextName (l ++ c :: l') = (l, l') := by
  have hpos : ∀ a ∈ l, (a != c) = true := fun a ha => bne_iff_ne.2 fun he => h (he ▸ ha)
  have hneg : ¬ (c != c) = true := by
    rw [bne_self_eq_false]
    exact Bool.false_ne_true
  rw [nextName, hsep, List.takeWhile_append_of_pos hpos, List.dropWhile_append_of_pos hpos,
    List.takeWhile_cons_of_neg (p := (· != c)) hneg,
    List.dropWhile_cons_of_neg (p := (· != c)) hneg, List.append_nil, List.tail_cons]

theorem nextName_split (h : c ∈ path) (hc : c ∉ (nextName path).1) :
    path = (nextName path).1 ++ separator path :: (nextName path).2 ∧
      separator path ∉ (nextName path).1 := by
  refine ⟨?_, fun hmem => ?_⟩
  · have happend := List.takeWhile_append_dropWhile (l := path) (p := (· != separator path))
    have hne : path.dropWhile (· != separator path) ≠ [] := by
      intro hnil
      rw [hnil, List.append_nil] at happend
      have hmem : c ∈ path.takeWhile (· != separator path) := by
        rw [happend]
        exact h
      exact hc hmem
    have hhead : (path.dropWhile (· != separator path)).head hne = separator path :=
      bne_eq_false_iff_eq.1 (List.head_dropWhile_not (· != separator path) hne)
    have hcons := List.cons_head_tail hne
    rw [hhead] at hcons
    calc path = (nextName path).1 ++ path.dropWhile (· != separator path) := happend.symm
      _ = (nextName path).1 ++ separator path :: (nextName path).2 :=
        congrArg ((nextName path).1 ++ ·) hcons.symm
  · have hall := List.all_takeWhile (l := path) (p := (· != separator path))
    have hne := List.all_eq_true.1 hall _ hmem
    rw [bne_self_eq_false] at hne
    exact Bool.false_ne_true hne

theorem mem_of_mem_nextName (h : c ∈ (nextName path).1 ∨ c ∈ (nextName path).2) : c ∈ path := by
  cases h with
  | inl h => exact List.takeWhile_subset _ h
  | inr h => exact List.dropWhile_subset _ (List.mem_of_mem_tail h)

theorem mem_nextName_snd (h : ';' ∈ path) (hc : ';' ∉ (nextName path).1) :
    ';' ∈ (nextName path).2 := by
  have hsplit := (nextName_split h hc).1
  rw [hsplit, List.mem_append, List.mem_cons] at h
  exact (h.resolve_left hc).resolve_left (separator_ne path).symm

theorem nextName_cut (h : ';' ∈ path) (hc : ';' ∉ (nextName path).1) :
    nextName (cut path) = ((nextName path).1, cut (nextName path).2) := by
  obtain ⟨hsplit, hsep⟩ := nextName_split h hc
  have hcut : cut path = (nextName path).1 ++ separator path :: cut (nextName path).2 := by
    calc cut path = cut ((nextName path).1 ++ separator path :: (nextName path).2) :=
          congrArg cut hsplit
      _ = (nextName path).1 ++ cut (separator path :: (nextName path).2) := cut_append hc
      _ = (nextName path).1 ++ separator path :: cut (nextName path).2 := by
        rw [cut_cons (separator_ne path)]
  have hsame : separator (cut path) = separator path := by
    by_cases hslash : '/' ∈ path
    · have hs : separator path = '/' := if_pos hslash
      rw [hs]
      apply if_pos
      rw [hcut, hs]
      exact List.mem_append_right _ List.mem_cons_self
    · have hs : separator path = '\\' := if_neg hslash
      rw [hs]
      exact if_neg fun hmem => hslash (mem_of_mem_cut hmem)
  rw [hcut] at hsame ⊢
  exact nextName_append hsame hsep

theorem cut_nextName (h : ';' ∈ (nextName path).1) : cut (nextName path).1 = cut path := by
  have happend := List.takeWhile_append_dropWhile (l := path) (p := (· != separator path))
  calc cut (nextName path).1
      = cut ((nextName path).1 ++ path.dropWhile (· != separator path)) :=
        (cut_append_left h _).symm
    _ = cut path := congrArg cut happend

theorem skipRoot_cut (h : 0 < (cut path).length) : skipRoot (cut path) = cut (skipRoot path) := by
  cases path with
  | nil => rfl
  | cons c path =>
    by_cases hsemi : c = ';'
    · subst hsemi
      exact absurd h (Nat.lt_irrefl 0)
    · rw [cut_cons hsemi]
      by_cases hslash : c = '/'
      · subst hslash
        rfl
      · by_cases hback : c = '\\'
        · subst hback
          rfl
        · have hskip : ∀ l, skipRoot (c :: l) = c :: l := by
            intro l
            rw [skipRoot]
            · exact fun _ he => hslash (List.cons.inj he).1
            · exact fun _ he => hback (List.cons.inj he).1
          rw [hskip, hskip, cut_cons hsemi]

theorem mem_of_mem_skipRoot (h : c ∈ skipRoot path) : c ∈ path := by
  unfold skipRoot at h
  split at h
  · exact List.mem_cons_of_mem _ h
  · exact List.mem_cons_of_mem _ h
  · exact h

theorem mem_skipRoot (h : ';' ∈ path) : ';' ∈ skipRoot path := by
  unfold skipRoot
  split
  · exact (List.mem_cons.1 h).resolve_left (by decide)
  · exact (List.mem_cons.1 h).resolve_left (by decide)
  · exact h

theorem Disc.Names.path_ne_nil {t : Disc} {dir : Dir} (h : t.Names dir path e) : path ≠ [] := by
  rintro rfl
  cases h with
  | skip _ _ hrest => exact hrest rfl
  | enter _ hname => exact hname rfl
  | file _ hname => exact hname rfl

theorem Disc.Names.isDirectory {t : Disc} {dir : Dir} (h : t.Names dir path e) :
    dir.isDirectory = true := by
  cases h with
  | skip hdir => exact hdir
  | enter hdir => exact hdir
  | file hdir => exact hdir

/-- The directory that a path looks its first component with a semicolon up in has a file with the
contents `l` under what is in front of that semicolon. -/
inductive Twin (t : Disc) : Dir → List Char → List UInt8 → Prop
  | here {dir : Dir} (hsemi : ';' ∈ (nextName path).1)
      (h : t.FileAt dir (cut (nextName path).1) l) : Twin t dir path l
  | skip {dir : Dir} (hsemi : ';' ∉ (nextName path).1) (hdir : dir.isDirectory = true)
      (hname : (nextName path).1 = []) (h : Twin t dir (nextName path).2 l) : Twin t dir path l
  | enter {dir : Dir} (hsemi : ';' ∉ (nextName path).1) (hdir : dir.isDirectory = true)
      (hname : (nextName path).1 ≠ []) (hentry : t.HasEntry dir (nextName path).1 sub)
      (h : Twin t sub (nextName path).2 l) : Twin t dir path l

theorem Twin.fileAt_cut {t : Disc} {dir : Dir} (h : Twin t dir path l) (hsemi : ';' ∈ path) :
    t.FileAt dir (cut path) l := by
  induction h with
  | here hsemi' hfile =>
    rw [cut_nextName hsemi'] at hfile
    exact hfile
  | skip hno hdir hname h ih =>
    obtain ⟨e, hnames, hl⟩ := ih (mem_nextName_snd hsemi hno)
    have hnext := nextName_cut hsemi hno
    refine ⟨e, .skip hdir ?_ ?_ ?_, hl⟩
    · rw [hnext]
      exact hname
    · rw [hnext]
      exact hnames.path_ne_nil
    · rw [hnext]
      exact hnames
  | @enter path sub l dir hno hdir hname hentry h ih =>
    obtain ⟨e, hnames, hl⟩ := ih (mem_nextName_snd hsemi hno)
    have hnext := nextName_cut hsemi hno
    have hentry' : t.HasEntry dir (nextName (cut path)).1 sub := by
      rw [hnext]
      exact hentry
    refine ⟨e, .enter hdir ?_ hentry' ?_ ?_, hl⟩
    · rw [hnext]
      exact hname
    · rw [hnext]
      exact hnames.path_ne_nil
    · rw [hnext]
      exact hnames

theorem twin_of_cut {t : Disc} {dir : Dir} (h : t.Names dir path file) (hsemi : ';' ∈ path)
    (hcut : t.FileAt dir (cut path) l) : Twin t dir path l := by
  induction h with
  | @skip path file dir hdir hname hrest h ih =>
    have hno : ';' ∉ (nextName path).1 := hname ▸ List.not_mem_nil
    have hnext := nextName_cut hsemi hno
    obtain ⟨e, hnames, hl⟩ := hcut
    refine .skip hno hdir hname (ih (mem_nextName_snd hsemi hno) ?_)
    cases hnames with
    | skip _ _ _ hnames =>
      rw [hnext] at hnames
      exact ⟨e, hnames, hl⟩
    | enter _ hname' =>
      rw [hnext] at hname'
      exact absurd hname hname'
    | file _ hname' =>
      rw [hnext] at hname'
      exact absurd hname hname'
  | @enter path sub file dir hdir hname hentry hrest h ih =>
    by_cases hno : ';' ∈ (nextName path).1
    · rw [← cut_nextName hno] at hcut
      exact .here hno hcut
    · have hnext := nextName_cut hsemi hno
      obtain ⟨e, hnames, hl⟩ := hcut
      refine .enter hno hdir hname hentry (ih (mem_nextName_snd hsemi hno) ?_)
      cases hnames with
      | skip _ hname' =>
        rw [hnext] at hname'
        exact absurd hname' hname
      | enter _ _ hentry' _ hnames =>
        rw [hnext] at hentry' hnames
        obtain rfl := hentry.unique hentry'
        exact ⟨e, hnames, hl⟩
      | file _ _ hentry' _ hfile =>
        -- the given path goes on below this file
        rw [hnext] at hentry'
        obtain rfl := hentry.unique hentry'
        exact absurd (h.isDirectory.symm.trans hfile) Bool.noConfusion
  | @file path dir file hdir hname hentry hrest hfile =>
    by_cases hno : ';' ∈ (nextName path).1
    · rw [← cut_nextName hno] at hcut
      exact .here hno hcut
    · have hmem := mem_nextName_snd hsemi hno
      rw [hrest] at hmem
      exact absurd hmem List.not_mem_nil

/-- The wrapper hands a path on as it is. -/
def Untouched (path : List Char) : Prop :=
  ';' ∉ path ∨ (cut path).length = 0 ∨ strSize ≤ (cut path).length

theorem normalized_of_untouched (h : Untouched path) : normalized path = path := by
  apply if_neg
  rintro ⟨hsemi, hpos, hlt⟩
  obtain hno | hzero | hlong := h
  · exact hno hsemi
  · exact Nat.ne_of_gt hpos hzero
  · exact absurd hlt (Nat.not_lt.2 hlong)

theorem normalized_of_touched (h : ¬ Untouched path) :
    ';' ∈ path ∧ 0 < (cut path).length ∧ normalized path = cut path := by
  obtain ⟨hsemi, hrest⟩ := not_or.1 h
  obtain ⟨hzero, hlong⟩ := not_or.1 hrest
  have hpos := Nat.pos_of_ne_zero hzero
  exact ⟨not_not.1 hsemi, hpos, if_pos ⟨not_not.1 hsemi, hpos, Nat.not_le.1 hlong⟩⟩

/-- The volume of a call has, beside the file that a path names, one under the bare name with the
same contents. -/
def HasTwin (m : Nat → Nat → Outcome) (heap : Heap) (stack : Buf) (q : Call)
    (path : List Char) (l : List UInt8) : Prop :=
  ∃ ipd, Descriptor m q.size q.loc ((List.range 16).map (16 + ·)) stack ipd ∧
    Twin ⟨m, q.size, le16 ipd 128, heap⟩ ⟨ipd, 156⟩ (skipRoot path) l

theorem holdsFile_cut_iff (hfile : HoldsFile m heap stack q path l) (hsemi : ';' ∈ path)
    (hpos : 0 < (cut path).length) (l' : List UInt8) :
    HoldsFile m heap stack q (cut path) l' ↔ HasTwin m heap stack q path l' := by
  obtain ⟨ipd, hdesc, e, hnames, hl⟩ := hfile
  constructor
  · intro hcut
    obtain ⟨ipd', hdesc', hfile'⟩ := hcut
    obtain rfl := hdesc.unique hdesc'
    rw [skipRoot_cut hpos] at hfile'
    exact ⟨ipd, hdesc, twin_of_cut hnames (mem_skipRoot hsemi) hfile'⟩
  · intro htwin
    obtain ⟨ipd', hdesc', htwin'⟩ := htwin
    refine ⟨ipd', hdesc', ?_⟩
    rw [skipRoot_cut hpos]
    exact htwin'.fileAt_cut (mem_skipRoot hsemi)

theorem loaded_injective (hlen : l.length = l'.length)
    (h : loaded q ret l = loaded q ret l') : l = l' :=
  put_injective hlen (congrArg Reply.retbuf h)

/-- The wrapper loads whatever `iso9660` loads for a path exactly when it leaves the path alone, or
the same contents are there under the bare name. -/
theorem compat_keeps_iff (m : Nat → Nat → Outcome) (heap : Heap) (stack : Buf) (q : Call)
    (path : List Char) :
    (∀ r, Loads (iso9660 (steady m) heap stack) q path r →
        Loads (iso9660CompatAction (steady m) heap stack) q path r) ↔
      ∀ l, HoldsFile m heap stack q path l → Untouched path ∨ HasTwin m heap stack q path l := by
  constructor
  · intro h l hfile
    by_cases huntouched : Untouched path
    · exact .inl huntouched
    · obtain ⟨hsemi, hpos, hnorm⟩ := normalized_of_touched huntouched
      have hne : path ≠ [] := List.ne_nil_of_mem hsemi
      obtain ⟨-, l', hl', heq⟩ := (compat_loads_iff m heap stack q path _).1
        (h _ ((iso9660_loads_iff m heap stack q path _).2 ⟨hne, l, hfile, rfl⟩))
      obtain rfl := loaded_injective (congrArg Reply.val heq) heq
      rw [hnorm] at hl'
      exact .inr ((holdsFile_cut_iff hfile hsemi hpos l).1 hl')
  · intro h r hloads
    obtain ⟨hne, l, hfile, rfl⟩ := (iso9660_loads_iff m heap stack q path r).1 hloads
    apply (compat_loads_iff m heap stack q path _).2
    refine ⟨hne, l, ?_, rfl⟩
    by_cases huntouched : Untouched path
    · rw [normalized_of_untouched huntouched]
      exact hfile
    · obtain ⟨hsemi, hpos, hnorm⟩ := normalized_of_touched huntouched
      rw [hnorm]
      exact (holdsFile_cut_iff hfile hsemi hpos l).2 ((h l hfile).resolve_left huntouched)

/-- A disc with the file `/TEST.ELF;1`, of four bytes. -/
def versionedImage : Nat → UInt8 :=
  written [slice 32769 isoStandardId, le 32896 2 2048, le 32926 4 18, le 32934 4 112,
    be 32949 1 2, be 36864 1 34, be 36889 1 2, be 36896 1 1, be 36898 1 34, be 36923 1 2,
    be 36930 2 0x0101, be 36932 1 44, le 36934 4 19, le 36942 4 4, be 36964 1 10,
    slice 36965 [0x54, 0x45, 0x53, 0x54, 0x2E, 0x45, 0x4C, 0x46, 0x3B, 0x31],
    slice 38912 [0x7F, 0x45, 0x4C, 0x46]]

def versionedDisc (loc _size : Nat) : Outcome := .ok fun i => versionedImage (loc + i)

def versionedCall : Call := ⟨.load, [], 0, 0, fun _ => 0, 2048, fun _ => 0, [], 0⟩

def zeros : Buf := fun _ => 0

theorem versionedDisc_reads (loc : Nat) (h : len ≤ 2048) :
    Reads versionedDisc 2048 loc len (bytes (fun i => versionedImage (loc + i)) 0 len) :=
  .last rfl h

/-- A block of the disc in a buffer. -/
def versionedBlock (loc len : Nat) : Buf := zeros.copy 0 (fun i => versionedImage (loc + i)) 0 len

theorem versionedBlock_eq (loc len : Nat) :
    put zeros 0 (bytes (fun i => versionedImage (loc + i)) 0 len) = versionedBlock loc len :=
  (copy_eq_put _ _ _ _).symm

theorem versionedDescriptor :
    Descriptor versionedDisc 2048 0 ((List.range 16).map (16 + ·)) zeros
      (versionedBlock 32768 2048) := by
  have hid : bytes (versionedBlock 32768 2048) 1 5 = isoStandardId := by decide +kernel
  rw [← versionedBlock_eq] at hid ⊢
  exact .here (versionedDisc_reads 32768 (Nat.le_refl _)) hid

def versionedVolume : Disc := ⟨versionedDisc, 2048, 2048, fun _ => some zeros⟩

def versionedRoot : Dir := ⟨versionedBlock 32768 2048, 156⟩

theorem versionedRoot_contents :
    versionedVolume.Contents versionedRoot
      (bytes (fun i => versionedImage (36864 + i)) 0 112) := by
  have hsize : versionedRoot.size = 112 := by decide +kernel
  have hloc : u32 (versionedRoot.extent * 2048) = 36864 := by decide +kernel
  show Reads versionedDisc 2048 (u32 (versionedRoot.extent * 2048)) versionedRoot.size _
  rw [hsize, hloc]
  exact versionedDisc_reads 36864 (by decide)

theorem versionedRoot_entry (h : search (versionedBlock 36864 112) 112 2048 (pathBytes name) 112 0
    = some off) : versionedVolume.HasEntry versionedRoot name ⟨versionedBlock 36864 112, off⟩ := by
  have hsize : versionedRoot.size = 112 := by decide +kernel
  refine ⟨zeros, _, off, rfl, versionedRoot_contents, ?_, ?_⟩
  · rw [versionedBlock_eq, hsize]
    exact h
  · rw [versionedBlock_eq]

theorem versionedRoot_noEntry (h : search (versionedBlock 36864 112) 112 2048 (pathBytes name) 112 0
    = none) (e : Dir) : ¬ versionedVolume.HasEntry versionedRoot name e := by
  have hsize : versionedRoot.size = 112 := by decide +kernel
  rintro ⟨buf, l, off, hbuf, hl, hoff, -⟩
  obtain rfl := Option.some.inj hbuf
  obtain rfl := hl.unique versionedRoot_contents
  rw [versionedBlock_eq, hsize] at hoff
  exact absurd (h.symm.trans hoff) (Option.some_ne_none _).symm

theorem versionedFile :
    HoldsFile versionedDisc (fun _ => some zeros) zeros versionedCall "/test.elf;1".toList
      (bytes (fun i => versionedImage (38912 + i)) 0 4) := by
  have hsize : (⟨versionedBlock 36864 112, 68⟩ : Dir).size = 4 := by decide +kernel
  have hloc : u32 ((⟨versionedBlock 36864 112, 68⟩ : Dir).extent * 2048) = 38912 := by
    decide +kernel
  have hbs : le16 (versionedBlock 32768 2048) 128 = 2048 := by decide +kernel
  refine ⟨_, versionedDescriptor, ?_⟩
  rw [hbs]
  refine ⟨⟨versionedBlock 36864 112, 68⟩, .file (by decide +kernel) (by decide)
    (versionedRoot_entry (by decide +kernel)) (by decide) (by decide +kernel), ?_⟩
  show Reads versionedDisc 2048 (u32 ((⟨versionedBlock 36864 112, 68⟩ : Dir).extent * 2048))
    (⟨versionedBlock 36864 112, 68⟩ : Dir).size _
  rw [hsize, hloc]
  exact versionedDisc_reads 38912 (by decide)

/-- The wrapper loses `/test.elf;1` of this disc. -/
theorem versionedImage_lost :
    ¬ ∀ r, Loads (iso9660 (steady versionedDisc) (fun _ => some zeros) zeros) versionedCall
        "/test.elf;1".toList r →
      Loads (iso9660CompatAction (steady versionedDisc) (fun _ => some zeros) zeros) versionedCall
        "/test.elf;1".toList r := by
  intro h
  have hloads := h _ ((iso9660_loads_iff _ _ _ _ _ _).2
    ⟨by decide, _, versionedFile, rfl⟩)
  obtain ⟨-, l, ⟨ipd, hdesc, e, hnames, -⟩, -⟩ := (compat_loads_iff _ _ _ _ _ _).1 hloads
  obtain rfl := hdesc.unique versionedDescriptor
  have hbs : le16 (versionedBlock 32768 2048) 128 = 2048 := by decide +kernel
  have hpath : skipRoot (normalized "/test.elf;1".toList) = "test.elf".toList := by decide
  have hnone (e : Dir) : ¬ versionedVolume.HasEntry versionedRoot "test.elf".toList e :=
    versionedRoot_noEntry (by decide +kernel) e
  rw [hbs, hpath] at hnames
  cases hnames with
  | skip _ hname => exact absurd hname (by decide)
  | enter _ _ hentry => exact hnone _ hentry
  | file _ _ hentry => exact hnone _ hentry

theorem search_name {buf : Buf} (h : search buf size blocksize name n sz = some off) :
    compareStrs (⟨buf, off⟩ : Dir).name name = true := by
  induction n generalizing sz with
  | zero => exact absurd h (Option.some_ne_none off).symm
  | succ n ih =>
    rw [search] at h
    by_cases hsz : sz < size
    · rw [if_pos hsz] at h
      dsimp only at h
      by_cases hname : compareStrs (⟨buf, sz⟩ : Dir).name name = true
      · rw [if_pos hname] at h
        by_cases hlen : (⟨buf, sz⟩ : Dir).length = 0
        · rw [if_pos hlen] at h
          exact absurd h (Option.some_ne_none off).symm
        · rw [if_neg hlen] at h
          obtain rfl := Option.some.inj h
          exact hname
      · rw [if_neg hname] at h
        exact ih h
    · rw [if_neg hsz] at h
      exact absurd h (Option.some_ne_none off).symm

theorem tolower_semicolon (h : tolower c = 0x3B) : c = 0x3B := by
  rw [tolower] at h
  by_cases hupper : 0x41 ≤ c ∧ c ≤ 0x5A
  · rw [if_pos hupper] at h
    have hc : c = 0x3B - 0x20 := by rw [← h, UInt8.add_sub_cancel]
    exact absurd (hc ▸ hupper.1) (by decide)
  · rw [if_neg hupper] at h
    exact h

theorem compareStrs_semicolon (h : compareStrs s1 s2 = true) (hmem : 0x3B ∈ s1) : 0x3B ∈ s2 := by
  rw [compareStrs, Bool.and_eq_true] at h
  have hmap : (0x3B : UInt8) ∈ s2.map tolower := by
    rw [← beq_iff_eq.1 h.2]
    exact List.mem_map.2 ⟨0x3B, hmem, by decide⟩
  obtain ⟨c, hc, hlower⟩ := List.mem_map.1 hmap
  exact tolower_semicolon hlower ▸ hc

theorem compareStrs_comm (h : compareStrs s1 s2 = true) : compareStrs s2 s1 = true := by
  rw [compareStrs, Bool.and_eq_true] at h ⊢
  exact ⟨beq_iff_eq.2 (beq_iff_eq.1 h.1).symm, beq_iff_eq.2 (beq_iff_eq.1 h.2).symm⟩

/-- The records of a volume that paths reach. -/
inductive Reached (t : Disc) (root : Dir) : Dir → Prop
  | root : Reached t root root
  | entry {dir : Dir} (h : Reached t root dir) (hdir : dir.isDirectory = true)
      (hentry : t.HasEntry dir name e) : Reached t root e

/-- No name is stored with a version. -/
def Bare (t : Disc) (root : Dir) : Prop :=
  ∀ dir name e, Reached t root dir → t.HasEntry dir name e → 0x3B ∉ e.name

/-- Every file is stored with a version. -/
def Versioned (t : Disc) (root : Dir) : Prop :=
  ∀ dir name e, Reached t root dir → t.HasEntry dir name e → e.isDirectory = false → 0x3B ∈ e.name

theorem Disc.HasEntry.compare {t : Disc} (h : t.HasEntry dir name e) :
    compareStrs e.name (pathBytes name) = true := by
  obtain ⟨buf, l, off, -, -, hoff, rfl⟩ := h
  exact search_name hoff

/-- On a bare volume the path of a file has no semicolon: the wrapper leaves it alone. -/
theorem Disc.Names.bare {t : Disc} (hbare : Bare t root) (hdir : Reached t root dir)
    (h : t.Names dir path e) : ';' ∉ path := by
  intro hsemi
  have hname {dir sub : Dir} {path : List Char} (hdir : Reached t root dir)
      (hentry : t.HasEntry dir (nextName path).1 sub) : ';' ∉ (nextName path).1 := by
    intro hmem
    have hbyte : 0x3B ∈ pathBytes (nextName path).1 := List.mem_map.2 ⟨_, hmem, by decide⟩
    exact hbare _ _ _ hdir hentry (compareStrs_semicolon (compareStrs_comm hentry.compare) hbyte)
  induction h with
  | @skip path e dir hisdir hnil hrest h ih =>
    have hno : ';' ∉ (nextName path).1 := hnil ▸ List.not_mem_nil
    exact ih hdir (mem_nextName_snd hsemi hno)
  | enter hisdir hnil hentry hrest h ih =>
    exact ih (.entry hdir hisdir hentry) (mem_nextName_snd hsemi (hname hdir hentry))
  | @file path dir e hisdir hnil hentry hrest hfile =>
    have hmem := mem_nextName_snd hsemi (hname hdir hentry)
    rw [hrest] at hmem
    exact List.not_mem_nil hmem

theorem mem_of_pathBytes (hbytes : ∀ c ∈ path, c.toNat < 256) (h : 0x3B ∈ pathBytes path) :
    ';' ∈ path := by
  obtain ⟨c, hc, hbyte⟩ := List.mem_map.1 h
  have hnat := congrArg UInt8.toNat hbyte
  rw [UInt8.toNat_ofNat', Nat.mod_eq_of_lt (hbytes c hc)] at hnat
  have hchar : c = ';' := Char.ext (UInt32.toNat_inj.1 hnat)
  exact hchar ▸ hc

theorem Disc.Names.versioned {t : Disc} (hversioned : Versioned t root)
    (hdir : Reached t root dir) (h : t.Names dir path e) (hbytes : ∀ c ∈ path, c.toNat < 256) :
    ';' ∈ path := by
  induction h with
  | skip hisdir hnil hrest h ih =>
    exact mem_of_mem_nextName (.inr (ih hdir fun c hc => hbytes c (mem_of_mem_nextName (.inr hc))))
  | enter hisdir hnil hentry hrest h ih =>
    exact mem_of_mem_nextName (.inr (ih (.entry hdir hisdir hentry) fun c hc =>
      hbytes c (mem_of_mem_nextName (.inr hc))))
  | file hisdir hnil hentry hrest hfile =>
    have hbyte := compareStrs_semicolon hentry.compare (hversioned _ _ _ hdir hentry hfile)
    exact mem_of_mem_nextName (.inl (mem_of_pathBytes
      (fun c hc => hbytes c (mem_of_mem_nextName (.inl hc))) hbyte))

theorem Twin.not_versioned {t : Disc} (h : Twin t dir path l) (hversioned : Versioned t root)
    (hdir : Reached t root dir) (hbytes : ∀ c ∈ path, c.toNat < 256) : False := by
  induction h with
  | here hsemi hfile =>
    obtain ⟨e, hnames, -⟩ := hfile
    exact not_mem_cut _ (hnames.versioned hversioned hdir fun c hc =>
      hbytes c (mem_of_mem_nextName (.inl (mem_of_mem_cut hc))))
  | skip hno hisdir hname h ih =>
    exact ih hdir fun c hc => hbytes c (mem_of_mem_nextName (.inr hc))
  | enter hno hisdir hname hentry h ih =>
    exact ih (.entry hdir hisdir hentry) fun c hc => hbytes c (mem_of_mem_nextName (.inr hc))

section

variable {m : Nat → Nat → Outcome} {heap : Heap} {stack ipd : Buf} {q : Call}
  (hdesc : Descriptor m q.size q.loc ((List.range 16).map (16 + ·)) stack ipd)

include hdesc

theorem compat_keeps_bare (hbare : Bare ⟨m, q.size, le16 ipd 128, heap⟩ ⟨ipd, 156⟩)
    (h : Loads (iso9660 (steady m) heap stack) q path r) :
    Loads (iso9660CompatAction (steady m) heap stack) q path r := by
  obtain ⟨hne, l, hfile, rfl⟩ := (iso9660_loads_iff m heap stack q path r).1 h
  have hsemi : ';' ∉ path := by
    intro hmem
    obtain ⟨ipd', hdesc', e, hnames, -⟩ := hfile
    obtain rfl := hdesc.unique hdesc'
    exact hnames.bare hbare .root (mem_skipRoot hmem)
  apply (compat_loads_iff m heap stack q path _).2
  rw [normalized_of_untouched (.inl hsemi)]
  exact ⟨hne, l, hfile, rfl⟩

/-- On a versioned volume the wrapper loses every file whose path it cuts. -/
theorem compat_loses_versioned (hversioned : Versioned ⟨m, q.size, le16 ipd 128, heap⟩ ⟨ipd, 156⟩)
    (hbytes : ∀ c ∈ path, c.toNat < 256) (htouched : ¬ Untouched path)
    (h : Loads (iso9660 (steady m) heap stack) q path r) (r' : Reply) :
    ¬ Loads (iso9660CompatAction (steady m) heap stack) q path r' := by
  intro hloads
  obtain ⟨-, l, hfile, -⟩ := (iso9660_loads_iff m heap stack q path r).1 h
  obtain ⟨-, l', hcut, -⟩ := (compat_loads_iff m heap stack q path r').1 hloads
  obtain ⟨hsemi, hpos, hnorm⟩ := normalized_of_touched htouched
  rw [hnorm] at hcut
  obtain ⟨ipd', hdesc', htwin⟩ := (holdsFile_cut_iff hfile hsemi hpos l').1 hcut
  obtain rfl := hdesc.unique hdesc'
  exact htwin.not_versioned hversioned .root fun c hc => hbytes c (mem_of_mem_skipRoot hc)

end

end Iso
end Pegasos2.Fs
