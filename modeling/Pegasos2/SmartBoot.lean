import Pegasos2.Bytes
import Pegasos2.Tokens
import Mathlib.Data.List.Induction

namespace Pegasos2.SmartBoot
open Tokens (tokens)
set_option autoImplicit true

abbrev Word := BitVec 32

/-- A number from the first four bytes of a property. -/
def wordOf (l : List UInt8) : Word :=
  (BitVec.ofNat 32 (l.getD 0 0).toNat <<< 24) ||| (BitVec.ofNat 32 (l.getD 1 0).toNat <<< 16) |||
    (BitVec.ofNat 32 (l.getD 2 0).toNat <<< 8) ||| BitVec.ofNat 32 (l.getD 3 0).toNat

inductive Family where
  | amigaos
  | linux
  | morphos
  deriving DecidableEq, Repr

def Family.name : Family → List Char
  | amigaos => "amigaos".toList
  | linux => "linux".toList
  | morphos => "morphos".toList

/-- The family of a DosType. The others are no candidates. -/
def classifyDostype (dostype : Word) : Option Family :=
  let high3 := dostype &&& 0xFFFFFF00#32
  if high3 = 0x444F5300#32 then some .amigaos
  else if high3 = 0x53465300#32 then some .amigaos
  else if high3 = 0x50465300#32 then some .amigaos
  else if high3 = 0x41465300#32 then some .amigaos
  else if high3 = 0x4D4F5200#32 then some .morphos
  else if high3 = 0x4C4E5800#32 then some .linux
  else if dostype = 0x45585432#32 ∨ dostype = 0x45585433#32 ∨ dostype = 0x45585434#32 then
    some .linux
  else none

/-- The names of a family that a priority list may use. -/
def osFamilyMatch (s : List Char) (family : Family) : Bool :=
  s == family.name ||
    family == .amigaos &&
      (s == "amigaos4".toList || s == "amigaos3".toList || s == "amiga".toList)

/-- A partition package, by its properties. -/
structure Package where
  props : List Char → Option (List UInt8)

/-- A property of at least four bytes. -/
def Package.word (p : Package) (name : List Char) : Option Word :=
  (p.props name).bind fun l => if l.length < 4 then none else some (wordOf l)

def Package.family (p : Package) : Option Family := (p.word "dostype".toList).bind classifyDostype

def Package.bootPri (p : Package) : Int :=
  match p.word "boot-priority".toList with
  | none => 0
  | some w => w.toInt

/-- A round of the loop over the partitions: the best one so far, and its priority. -/
def pickStep (family : Family) (best : Option Package × Int) (p : Package) :
    Option Package × Int :=
  if p.family ≠ some family then best
  else if p.bootPri < 0 then best
  else if best.2 < p.bootPri then (some p, p.bootPri)
  else best

def pickPartitionForFamily (hd : List Package) (family : Family) : Option Package :=
  (hd.foldl (pickStep family) (none, -129)).1

/-- What the loaders run on: `interp_text`, and `f_set_bootargs` with its operands pushed. -/
structure Machine (σ : Type) where
  interpText : List Char → σ → Retcode × σ
  setBootargs : List Char → σ → Retcode × σ

section Loaders

variable (m : Machine σ)

/-- The commands one after the other, until one succeeds. -/
def tryCommands : List (List Char) → σ → Retcode × σ
  | [], s => (.eUnsupportedFilesys, s)
  | c :: cs, s =>
    let (r, s) := m.interpText c s
    if r = .noError then (.noError, s) else tryCommands cs s

def loaderAmigaos (s : σ) : Retcode × σ := m.interpText "boot hd:0 amigaboot.of".toList s

/-- The index of the partition, or the default slot. -/
def partIdx (part : Package) : Int :=
  match part.word "reg".toList with
  | none => 1
  | some w => w.toInt

def linuxPaths : List (List Char) :=
  ["/boot/vmlinux".toList, "/vmlinux".toList, "/boot/vmlinuz".toList, "/yaboot".toList]

def loaderLinux (part : Package) (s : σ) : Retcode × σ :=
  tryCommands m (linuxPaths.map fun path =>
    "boot hd:".toList ++ (toString (partIdx part)).toList ++ ' ' :: path) s

def loaderMorphos (s : σ) : Retcode × σ := (.eUnsupportedFilesys, s)

def cdCommand (path : String) : List Char := "boot cd ".toList ++ path.toList

def loaderAmigaosCd (s : σ) : Retcode × σ := m.interpText (cdCommand "amigaboot.of") s

/-- Load a file, set the arguments of the kernel, and start it. -/
def loadAndGo (loadCmd cmdline : List Char) (s : σ) : Retcode × σ :=
  let (r, s) := m.interpText loadCmd s
  if r ≠ .noError then (r, s)
  else
    let (r, s) := m.setBootargs cmdline s
    if r ≠ .noError then (r, s) else m.interpText "go".toList s

def loaderLinuxCdChrp (s : σ) : Retcode × σ :=
  loadAndGo m "load cd /install/powerpc/vmlinuz-chrp.initrd".toList "console=ttyS0,9600".toList s

def loaderLinuxCd (s : σ) : Retcode × σ :=
  let (r, s) := loaderLinuxCdChrp m s
  if r = .noError then (r, s)
  else
    tryCommands m [cdCommand "boot/vmlinux", cdCommand "vmlinux", cdCommand "yaboot"] s

def loaderMorphosCd (s : σ) : Retcode × σ :=
  loadAndGo m "load cd /boot.img".toList "rds=0".toList s

end Loaders

def isBlank (c : Char) : Bool := c == ' ' || c == '\t'

def isSep (c : Char) : Bool := c == ',' || isBlank c

def resolveFamilyToken (tok : List Char) : Option Family :=
  if osFamilyMatch tok .amigaos then some .amigaos
  else if osFamilyMatch tok .linux then some .linux
  else if osFamilyMatch tok .morphos then some .morphos
  else none

/-- `if (*cur == ',') cur++` -/
def skipComma : List Char → List Char
  | ',' :: cur => cur
  | cur => cur

/-- The next token, which may be empty, and what is behind it. -/
def nextToken (cur : List Char) : List Char × List Char :=
  let cur := cur.dropWhile isBlank
  (cur.takeWhile fun c => !isSep c,
    skipComma ((cur.dropWhile fun c => !isSep c).dropWhile isBlank))

theorem length_skipComma_le (cur : List Char) : (skipComma cur).length ≤ cur.length := by
  rw [skipComma.eq_def]
  split
  · exact Nat.le_succ _
  · exact Nat.le_refl _

theorem length_dropWhile_le (p : α → Bool) (l : List α) : (l.dropWhile p).length ≤ l.length :=
  (List.dropWhile_sublist p).length_le

theorem length_nextToken_lt (h : cur ≠ []) : (nextToken cur).2.length < cur.length := by
  obtain ⟨c, cs, rfl⟩ := List.exists_cons_of_ne_nil h
  have hblank (l : List Char) :
      (skipComma ((l.dropWhile fun c => !isSep c).dropWhile isBlank)).length ≤ l.length :=
    (length_skipComma_le _).trans ((length_dropWhile_le _ _).trans (length_dropWhile_le _ _))
  rw [nextToken]
  dsimp only
  by_cases hb : isBlank c = true
  · rw [List.dropWhile_cons_of_pos hb]
    exact Nat.lt_succ_of_le ((hblank _).trans (length_dropWhile_le _ _))
  · rw [List.dropWhile_cons_of_neg hb]
    by_cases hsep : isSep c = true
    · have hcomma : c = ',' := by
        rw [isSep, Bool.or_eq_true, beq_iff_eq] at hsep
        exact hsep.resolve_right hb
      rw [List.dropWhile_cons_of_neg (by rw [hsep]; exact Bool.false_ne_true),
        List.dropWhile_cons_of_neg hb, hcomma]
      exact Nat.lt_succ_self _
    · rw [List.dropWhile_cons_of_pos (by simpa using hsep)]
      have hle : ((cs.dropWhile fun c => !isSep c).dropWhile isBlank).length ≤ cs.length :=
        (length_dropWhile_le _ _).trans (length_dropWhile_le _ _)
      exact Nat.lt_succ_of_le ((length_skipComma_le _).trans hle)

/-- What is tried: a family on the hard disk with its candidate, a family on the CD, or a plain
`boot`. -/
inductive Attempt where
  | hd (family : Family) (cand : Package)
  | cd (family : Family)
  | boot

/-- The state of the machine and the attempts so far. -/
structure Boot (σ : Type) where
  env : σ
  tried : List Attempt

/-- The loop over the priority list. `onFamily` says whether a loader has succeeded. -/
def pass (onFamily : Family → Boot σ → Bool × Boot σ) (cur : List Char) (b : Boot σ) :
    Bool × Boot σ :=
  if _h : cur = [] then (false, b)
  else if (nextToken cur).1 = [] then pass onFamily (nextToken cur).2 b
  else
    match resolveFamilyToken (nextToken cur).1 with
    | none => pass onFamily (nextToken cur).2 b
    | some family =>
      let (done, b) := onFamily family b
      if done then (true, b) else pass onFamily (nextToken cur).2 b
termination_by cur.length
decreasing_by all_goals exact length_nextToken_lt _h

section Word

variable (m : Machine σ)

def hdLoader (family : Family) (cand : Package) : σ → Retcode × σ :=
  match family with
  | .amigaos => loaderAmigaos m
  | .linux => loaderLinux m cand
  | .morphos => loaderMorphos

def cdLoader : Family → σ → Retcode × σ
  | .amigaos => loaderAmigaosCd m
  | .linux => loaderLinuxCd m
  | .morphos => loaderMorphosCd m

def Attempt.run : Attempt → σ → Retcode × σ
  | .hd family cand => hdLoader m family cand
  | .cd family => cdLoader m family
  | .boot => m.interpText "boot".toList

/-- An attempt, and whether it has succeeded. -/
def Attempt.take (a : Attempt) (b : Boot σ) : Bool × Boot σ :=
  let (r, s) := a.run m b.env
  (r == .noError, ⟨s, b.tried ++ [a]⟩)

def hdFamily (hd : List Package) (family : Family) (b : Boot σ) : Bool × Boot σ :=
  match pickPartitionForFamily hd family with
  | none => (false, b)
  | some cand => (Attempt.hd family cand).take m b

def cdFamily (family : Family) (b : Boot σ) : Bool × Boot σ := (Attempt.cd family).take m b

/-- The value of `boot-os-priority`, or the default. -/
def priority : Option (List Char) → List Char
  | none => "amigaos,morphos,linux".toList
  | some [] => "amigaos,morphos,linux".toList
  | some prio => prio

/-- The last resort of `f_smart_boot`. -/
def plainBoot (b : Boot σ) : Retcode × Boot σ :=
  let (r, s) := m.interpText "boot".toList b.env
  (r, ⟨s, b.tried ++ [.boot]⟩)

/-- The first pass, over the partitions of the first hard disk if there is one. -/
def hdPass (prio : List Char) (hd : Option (List Package)) (b : Boot σ) : Bool × Boot σ :=
  match hd with
  | none => (false, b)
  | some hd => pass (hdFamily m hd) prio b

/-- The second pass, if there is a CD. -/
def cdPass (prio : List Char) (cd : Bool) (b : Boot σ) : Bool × Boot σ :=
  if cd then pass (cdFamily m) prio b else (false, b)

/-- `f_smart_boot`, with the value of `boot-os-priority`. -/
def fSmartBoot (prio : Option (List Char)) (hd : Option (List Package)) (cd : Bool) (env : σ) :
    Retcode × Boot σ :=
  let (done, b) := hdPass m (priority prio) hd ⟨env, []⟩
  if done then (.noError, b)
  else
    let (done, b) := cdPass m (priority prio) cd b
    if done then (.noError, b) else plainBoot m b

end Word

/-- The families of a priority list. -/
def families (prio : List Char) : List Family := (tokens isSep prio).filterMap resolveFamilyToken

/-- A partition that may be booted for a family. -/
def Eligible (family : Family) (p : Package) : Prop := p.family = some family ∧ 0 ≤ p.bootPri

/-- The candidate of a family: the first of those with the highest priority. -/
def IsCandidate (hd : List Package) (family : Family) : Option Package → Prop
  | none => ∀ p ∈ hd, ¬ Eligible family p
  | some p => ∃ l l', hd = l ++ p :: l' ∧ Eligible family p ∧
      (∀ q ∈ l, Eligible family q → q.bootPri < p.bootPri) ∧
      ∀ q ∈ l', Eligible family q → q.bootPri ≤ p.bootPri

/-- The loaders in their order. -/
def plan (fs : List Family) (hd cd : Bool) (cand : Family → Option Package) : List Attempt :=
  (if hd then fs.filterMap fun f => (cand f).map (.hd f) else []) ++
    if cd then fs.map .cd else []

/-- The loaders are tried in the order of the list until one succeeds, and `boot` if none does. -/
inductive Tries (m : Machine σ) : List Attempt → σ → Retcode → List Attempt → σ → Prop where
  | done (h : a.run m s = (.noError, s')) : Tries m (a :: l) s .noError [a] s'
  | next (h : a.run m s = (ret, s')) (hne : ret ≠ .noError) (hrest : Tries m l s' ret' tried s'') :
      Tries m (a :: l) s ret' (a :: tried) s''
  | boot (h : m.interpText "boot".toList s = (ret, s')) : Tries m [] s ret [.boot] s'

theorem skipComma_tokens (cur : List Char) : tokens isSep (skipComma cur) = tokens isSep cur := by
  rw [skipComma.eq_def]
  split
  · exact (Tokens.tokens_cons_sep _ rfl).symm
  · rfl

theorem isSep_of_isBlank (c : Char) (h : isBlank c = true) : isSep c = true := by
  rw [isSep, h, Bool.or_true]

theorem nextToken_tokens (cur : List Char) :
    tokens isSep cur = tokens isSep (nextToken cur).1 ++ tokens isSep (nextToken cur).2 := by
  rw [nextToken]
  dsimp only
  rw [skipComma_tokens, Tokens.tokens_dropWhile isSep_of_isBlank,
    ← Tokens.tokens_dropWhile isSep_of_isBlank cur]
  exact Tokens.tokens_rest isSep _

theorem nextToken_families (cur : List Char) :
    families cur = (if (nextToken cur).1 = [] then []
      else (resolveFamilyToken (nextToken cur).1).toList) ++ families (nextToken cur).2 := by
  rw [families, nextToken_tokens, List.filterMap_append]
  split_ifs with h
  · rw [h]
    rfl
  · have hnot : ∀ c ∈ (nextToken cur).1, isSep c = false :=
      fun c hc => Tokens.not_sep_of_mem_first hc
    rw [Tokens.tokens_single hnot h]
    cases hr : resolveFamilyToken (nextToken cur).1 with
    | none => rw [List.filterMap_cons_none hr]; rfl
    | some f => rw [List.filterMap_cons_some hr]; rfl

/-- A pass over a list of families. -/
def passFamilies (onFamily : Family → Boot σ → Bool × Boot σ) : List Family → Boot σ → Bool × Boot σ
  | [], b => (false, b)
  | f :: fs, b =>
    let (done, b) := onFamily f b
    if done then (true, b) else passFamilies onFamily fs b

theorem pass_eq (onFamily : Family → Boot σ → Bool × Boot σ) (cur : List Char) (b : Boot σ) :
    pass onFamily cur b = passFamilies onFamily (families cur) b := by
  induction hn : cur.length using Nat.strongRecOn generalizing cur b with
  | ind n ih =>
    rw [pass]
    split_ifs with hnil hempty
    · rw [hnil]
      rfl
    · have hlt := length_nextToken_lt hnil
      rw [nextToken_families cur, if_pos hempty, List.nil_append]
      exact ih _ (hn ▸ hlt) _ b rfl
    · have hlt := length_nextToken_lt hnil
      rw [nextToken_families, if_neg hempty]
      cases hr : resolveFamilyToken (nextToken cur).1 with
      | none => exact ih _ (hn ▸ hlt) _ b rfl
      | some f =>
        show (if (onFamily f b).1 then (true, (onFamily f b).2)
          else pass onFamily (nextToken cur).2 (onFamily f b).2) = _
        rw [ih _ (hn ▸ hlt) _ _ rfl]
        rfl

theorem IsCandidate.skip (h : IsCandidate l family best) (hq : ¬ Eligible family q) :
    IsCandidate (l ++ [q]) family best := by
  cases best with
  | none =>
    intro p hp
    obtain hp | hp := List.mem_append.1 hp
    · exact h p hp
    · rw [List.mem_singleton.1 hp]
      exact hq
  | some p =>
    obtain ⟨l₁, l₂, rfl, hp, hbefore, hafter⟩ := h
    refine ⟨l₁, l₂ ++ [q], by rw [List.append_assoc, List.cons_append], hp, hbefore, ?_⟩
    intro r hr
    obtain hr | hr := List.mem_append.1 hr
    · exact hafter r hr
    · rw [List.mem_singleton.1 hr]
      exact fun hel => absurd hel hq

/-- What the loop over the partitions has found. -/
structure Picked (family : Family) (l : List Package) (best : Option Package × Int) : Prop where
  cand : IsCandidate l family best.1
  none : best.1 = none → best.2 = -129
  some : ∀ p, best.1 = some p → best.2 = p.bootPri

theorem Picked.step (h : Picked family l best) (q : Package) :
    Picked family (l ++ [q]) (pickStep family best q) := by
  rw [pickStep]
  split_ifs with hfamily hneg hbetter
  · exact ⟨h.cand.skip fun hel => hfamily hel.1, h.none, h.some⟩
  · exact ⟨h.cand.skip fun hel => absurd hel.2 (Int.not_le.2 hneg), h.none, h.some⟩
  · have hq : Eligible family q := ⟨not_not.1 hfamily, Int.not_lt.1 hneg⟩
    refine ⟨⟨l, [], rfl, hq, fun p hp hel => ?_, fun p hp => absurd hp List.not_mem_nil⟩,
      nofun, fun p hp => ?_⟩
    · have hcand := h.cand
      cases hbest : best.1 with
      | none =>
        rw [hbest] at hcand
        exact absurd hel (hcand p hp)
      | some r =>
        rw [hbest] at hcand
        obtain ⟨l₁, l₂, rfl, -, hbefore, hafter⟩ := hcand
        rw [h.some r hbest] at hbetter
        obtain hp | hp := List.mem_append.1 hp
        · exact Int.lt_trans (hbefore p hp hel) hbetter
        · cases hp with
          | head => exact hbetter
          | tail _ hp => exact Int.lt_of_le_of_lt (hafter p hp hel) hbetter
    · rw [← Option.some.inj hp]
  · have hcand := h.cand
    refine ⟨?_, h.none, h.some⟩
    cases hbest : best.1 with
    | none =>
      rw [h.none hbest] at hbetter
      omega
    | some r =>
      rw [hbest] at hcand
      obtain ⟨l₁, l₂, rfl, hr, hbefore, hafter⟩ := hcand
      rw [h.some r hbest] at hbetter
      refine ⟨l₁, l₂ ++ [q], by rw [List.append_assoc, List.cons_append], hr, hbefore, ?_⟩
      intro p hp hel
      obtain hp | hp := List.mem_append.1 hp
      · exact hafter p hp hel
      · rw [List.mem_singleton.1 hp]
        exact Int.not_lt.1 hbetter

theorem pickPartitionForFamily_candidate (hd : List Package) (family : Family) :
    IsCandidate hd family (pickPartitionForFamily hd family) := by
  have h : Picked family hd (hd.foldl (pickStep family) (none, -129)) := by
    induction hd using List.reverseRecOn with
    | nil => exact ⟨fun p hp => absurd hp List.not_mem_nil, fun _ => rfl, nofun⟩
    | append_singleton l q ih =>
      rw [List.foldl_append]
      exact ih.step q
  exact h.cand

section Order

variable {m : Machine σ}

/-- The attempts of a list have been made, up to the first that succeeds. -/
inductive Ran (m : Machine σ) : List Attempt → Boot σ → Bool × Boot σ → Prop where
  | nil : Ran m [] b (false, b)
  | done {a : Attempt} {b : Boot σ} (h : (a.take m b).1 = true) : Ran m (a :: l) b (a.take m b)
  | next {a : Attempt} {b : Boot σ} (h : (a.take m b).1 = false)
      (hrest : Ran m l (a.take m b).2 x) : Ran m (a :: l) b x

theorem Ran.append_done (h : Ran m l b x) (hx : x.1 = true) (l' : List Attempt) :
    Ran m (l ++ l') b x := by
  induction h with
  | nil => cases hx
  | done h => exact .done h
  | next h hrest ih => exact .next h (ih hx)

theorem Ran.append (h : Ran m l b x) (hx : x.1 = false) (h' : Ran m l' x.2 y) :
    Ran m (l ++ l') b y := by
  induction h with
  | nil => exact h'
  | done h =>
    rw [h] at hx
    cases hx
  | next h hrest ih => exact .next h (ih hx h')

/-- The pass over a list of families, with the attempts that are made for each of them. -/
theorem passFamilies_ran {attempts : Family → List Attempt}
    (h : ∀ f b, Ran m (attempts f) b (onFamily f b)) (fs : List Family) (b : Boot σ) :
    Ran m (fs.flatMap attempts) b (passFamilies onFamily fs b) := by
  induction fs generalizing b with
  | nil => exact .nil
  | cons f fs ih =>
    rw [List.flatMap_cons]
    show Ran m _ b (if (onFamily f b).1 then (true, (onFamily f b).2)
      else passFamilies onFamily fs (onFamily f b).2)
    have hran := h f b
    cases hdone : (onFamily f b).1 with
    | false =>
      rw [if_neg Bool.false_ne_true]
      exact hran.append hdone (ih _)
    | true =>
      rw [if_pos rfl, ← hdone]
      exact hran.append_done hdone _

theorem take_ran (a : Attempt) (b : Boot σ) : Ran m [a] b (a.take m b) := by
  cases h : (a.take m b).1 with
  | false =>
    have hx : a.take m b = (false, (a.take m b).2) := by rw [← h]
    rw [hx]
    exact .next h .nil
  | true => exact .done h

theorem hdFamily_ran (hd : List Package) (f : Family) (b : Boot σ) :
    Ran m ((pickPartitionForFamily hd f).map (Attempt.hd f)).toList b (hdFamily m hd f b) := by
  rw [hdFamily]
  cases pickPartitionForFamily hd f with
  | none => exact .nil
  | some cand => exact take_ran _ b

/-- The result of `f_smart_boot` after the passes. -/
def finish (m : Machine σ) (x : Bool × Boot σ) : Retcode × Boot σ :=
  if x.1 then (.noError, x.2) else plainBoot m x.2

theorem take_tried (a : Attempt) (b : Boot σ) : (a.take m b).2.tried = b.tried ++ [a] := rfl

theorem Ran.tries (h : Ran m l b x) : ∃ tried, (finish m x).2.tried = b.tried ++ tried ∧
    Tries m l b.env (finish m x).1 tried (finish m x).2.env := by
  induction h with
  | nil => exact ⟨[.boot], rfl, .boot rfl⟩
  | @done l a b h =>
    rw [finish, if_pos h]
    have hret : (a.run m b.env).1 = .noError := beq_iff_eq.1 h
    exact ⟨[a], take_tried a b, .done (Prod.ext hret rfl)⟩
  | @next l x a b h hrest ih =>
    obtain ⟨tried, htried, htries⟩ := ih
    have hret : (a.run m b.env).1 ≠ .noError := fun he => by
      have htrue : (a.take m b).1 = true := beq_iff_eq.2 he
      rw [htrue] at h
      cases h
    refine ⟨a :: tried, ?_, .next rfl hret htries⟩
    rw [htried, take_tried, List.append_assoc]
    rfl

end Order

theorem hdPass_ran (m : Machine σ) (prio : List Char) (hd : Option (List Package)) (b : Boot σ) :
    Ran m (if hd.isSome then (families prio).filterMap fun f =>
      (pickPartitionForFamily (hd.getD []) f).map (.hd f) else []) b (hdPass m prio hd b) := by
  cases hd with
  | none => exact .nil
  | some hd =>
    rw [Option.isSome_some, if_pos rfl, Option.getD_some, List.filterMap_eq_flatMap_toList, hdPass,
      pass_eq]
    exact passFamilies_ran (fun f b => hdFamily_ran hd f b) _ b

theorem cdPass_ran (m : Machine σ) (prio : List Char) (cd : Bool) (b : Boot σ) :
    Ran m (if cd then (families prio).map .cd else []) b (cdPass m prio cd b) := by
  rw [cdPass]
  cases cd with
  | false => exact .nil
  | true =>
    rw [if_pos rfl, if_pos rfl, pass_eq, List.map_eq_flatMap]
    exact passFamilies_ran (fun f b => take_ran (.cd f) b) _ b

/-- `smart-boot` tries the loaders of the families of the priority list, or of the default list, in
their order: first those that have a candidate on the hard disk, then those of the CD. -/
theorem fSmartBoot_order (m : Machine σ) (prio : Option (List Char)) (hd : Option (List Package))
    (cd : Bool) (env : σ) :
    ∃ cand, (∀ f, IsCandidate (hd.getD []) f (cand f)) ∧
      Tries m (plan (families (priority prio)) hd.isSome cd cand) env
        (fSmartBoot m prio hd cd env).1 (fSmartBoot m prio hd cd env).2.tried
        (fSmartBoot m prio hd cd env).2.env := by
  refine ⟨pickPartitionForFamily (hd.getD []),
    fun f => pickPartitionForFamily_candidate (hd.getD []) f, ?_⟩
  have hhd := hdPass_ran m (priority prio) hd ⟨env, []⟩
  have hran : Ran m (plan (families (priority prio)) hd.isSome cd
      (pickPartitionForFamily (hd.getD []))) ⟨env, []⟩
      (if (hdPass m (priority prio) hd ⟨env, []⟩).1 then hdPass m (priority prio) hd ⟨env, []⟩
        else cdPass m (priority prio) cd (hdPass m (priority prio) hd ⟨env, []⟩).2) := by
    split_ifs with hdone
    · exact hhd.append_done hdone _
    · exact hhd.append (Bool.not_eq_true _ ▸ hdone) (cdPass_ran m (priority prio) cd _)
  have hword : fSmartBoot m prio hd cd env = finish m
      (if (hdPass m (priority prio) hd ⟨env, []⟩).1 then hdPass m (priority prio) hd ⟨env, []⟩
        else cdPass m (priority prio) cd (hdPass m (priority prio) hd ⟨env, []⟩).2) := by
    show (if (hdPass m (priority prio) hd ⟨env, []⟩).1 then
      (Retcode.noError, (hdPass m (priority prio) hd ⟨env, []⟩).2)
      else finish m (cdPass m (priority prio) cd (hdPass m (priority prio) hd ⟨env, []⟩).2)) = _
    split_ifs with hdone
    · rw [finish, if_pos hdone]
    · rfl
  obtain ⟨tried, htried, htries⟩ := hran.tries
  rw [hword]
  rwa [htried]

/-- A machine on which every command succeeds. -/
def willing : Machine Unit := ⟨fun _ s => (.noError, s), fun _ s => (.noError, s)⟩

/-- An empty priority list stands for the default one, so that the CD is tried. -/
theorem fSmartBoot_emptyList : ¬ ∃ cand, (∀ f, IsCandidate [] f (cand f)) ∧
    Tries willing (plan (families []) false true cand) ()
      (fSmartBoot willing (some []) none true ()).1
      (fSmartBoot willing (some []) none true ()).2.tried
      (fSmartBoot willing (some []) none true ()).2.env := by
  rintro ⟨cand, -, htries⟩
  have hdefault : families (priority (some [])) = [.amigaos, .morphos, .linux] := by decide
  have htried : (fSmartBoot willing (some []) none true ()).2.tried = [.cd .amigaos] := by
    have hpass : cdPass willing (priority (some [])) true ⟨(), []⟩ =
        (true, ⟨(), [.cd .amigaos]⟩) := by
      rw [cdPass, if_pos rfl, pass_eq, hdefault]
      rfl
    show (if (cdPass willing (priority (some [])) true ⟨(), []⟩).1 then
      (Retcode.noError, (cdPass willing (priority (some [])) true ⟨(), []⟩).2)
      else plainBoot willing (cdPass willing (priority (some [])) true ⟨(), []⟩).2).2.tried = _
    rw [hpass]
    rfl
  rw [htried] at htries
  cases htries

end Pegasos2.SmartBoot
