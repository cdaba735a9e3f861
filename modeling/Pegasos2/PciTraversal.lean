import Pegasos2.PciFunction

namespace Pegasos2.Pci
set_option autoImplicit true

namespace Bus

/-- The number of bridges of a bus and of all buses behind them. -/
def bridges : Bus → Nat
  | nil => 0
  | cons _ _ c below rest => (if isBridge c then below.bridges + 1 else 0) + rest.bridges

/-- The nesting depth of the bridges. -/
def depth : Bus → Nat
  | nil => 0
  | cons _ _ c below rest => max (if isBridge c then below.depth + 1 else 0) rest.depth

theorem bridges_func (h : isBridge c = false) :
    (cons dev fn c below rest).bridges = rest.bridges := by
  rw [bridges, h, if_neg Bool.false_ne_true, Nat.zero_add]

theorem bridges_bridge (h : isBridge c = true) :
    (cons dev fn c below rest).bridges = below.bridges + 1 + rest.bridges := by
  rw [bridges, if_pos h]

end Bus

/-- The multi-function device that a bus is in after the function `dev.fn`. -/
def inDevice (cur : Option Nat) (dev fn : Nat) (c : Config) : Option Nat :=
  if fn = 0 then (if multiFn c then some dev else none) else cur

/-- A function that is present at `dev.fn`, at or behind position `lo`. A function other than 0
belongs to a multi-function device, `cur` being the one that the position is in. -/
structure Placed (lo : Nat) (cur : Option Nat) (dev fn : Nat) (c : Config) : Prop where
  pos : lo ≤ 8 * dev + fn
  dev_lt : dev < 32
  fn_lt : fn < 8
  vendor : vendorId c ≠ 0xFFFF#16
  cur_eq : fn = 0 ∨ cur = some dev

/-- A populated bus at reset, its functions in the order of their numbers. -/
inductive Formed : Nat → Option Nat → Bus → Prop
  | nil : Formed lo cur .nil
  | func (hplace : Placed lo cur dev fn c) (hbridge : isBridge c = false)
      (hrest : Formed (8 * dev + fn + 1) (inDevice cur dev fn c) rest) :
      Formed lo cur (.cons dev fn c .nil rest)
  | bridge (hplace : Placed lo cur dev fn c) (hbridge : isBridge c = true)
      (hreset : BridgeReset c) (hbelow : Formed 0 none below)
      (hrest : Formed (8 * dev + fn + 1) (inDevice cur dev fn c) rest) :
      Formed lo cur (.cons dev fn c below rest)

/-- What is behind one host bridge at reset. -/
structure Topology where
  bus : Bus
  formed : Formed 0 none bus
  bridges_le : bus.bridges ≤ 255

/-- A host without a device. -/
def Topology.vacant : Topology where
  bus := .nil
  formed := .nil
  bridges_le := Nat.zero_le 255

/-- The state of a scan: the next bus number, the allocators and the report. -/
structure Scan where
  next : Nat
  alloc : Alloc
  out : List Line

def Scan.walk (s : Scan) (c : σ) : Walk σ := ⟨c, s.alloc, s.out⟩

def Walk.scan (w : Walk σ) (next : Nat) : Scan := ⟨next, w.alloc, w.out⟩

-- Proved by rewriting: as definitional equalities they would make the kernel compare scan
-- states field by field, and so run the scan of a function.
@[simp] theorem Walk.scan_next (w : Walk σ) (n : Nat) : (w.scan n).next = n := by
  rw [Walk.scan]

@[simp] theorem Walk.scan_alloc (w : Walk σ) (n : Nat) : (w.scan n).alloc = w.alloc := by
  rw [Walk.scan]

@[simp] theorem Walk.scan_out (w : Walk σ) (n : Nat) : (w.scan n).out = w.out := by
  rw [Walk.scan]

/-- The scan of the function with registers `c` at `bus:dev.fn`. -/
def entered (b dev fn : Nat) (c : Config) (s : Scan) : Walk Config :=
  enterFunction funcAccess ⟨BitVec.ofNat 8 b, dev, fn⟩ (readHeader funcAccess c) (s.walk c)

def opened (b dev fn : Nat) (c : Config) (s : Scan) : Walk Config :=
  openBridge funcAccess (BitVec.ofNat 8 b) (BitVec.ofNat 8 s.next) (entered b dev fn c s)

/-- The bridge after the scan of the bus behind it has ended in `s'`. -/
def closed (b dev fn : Nat) (c : Config) (s s' : Scan) : Walk Config :=
  closeBridge funcAccess (opened b dev fn c s).alloc (BitVec.ofNat 8 s'.next - 1#8)
    (s'.walk (opened b dev fn c s).cfg)

/-- The scan of the bus `X` with number `b`, from position `lo` on: it leaves `X'`, and takes
the state `s` to `s'`. -/
inductive Scans : Nat → Option Nat → Nat → Scan → Bus → Bus → Scan → Prop
  | nil : Scans lo cur b s .nil .nil s
  | func (hplace : Placed lo cur dev fn c) (hbridge : isBridge c = false)
      (hrest : Scans (8 * dev + fn + 1) (inDevice cur dev fn c) b
        ((entered b dev fn c s).scan s.next) rest rest' s') :
      Scans lo cur b s (.cons dev fn c .nil rest)
        (.cons dev fn (entered b dev fn c s).cfg .nil rest') s'
  | bridge (hplace : Placed lo cur dev fn c) (hbridge : isBridge c = true)
      (hreset : BridgeReset c) (hle : s₁.next ≤ 256)
      (hbelow : Scans 0 none s.next ((opened b dev fn c s).scan (s.next + 1)) below below' s₁)
      (hrest : Scans (8 * dev + fn + 1) (inDevice cur dev fn c) b
        ((closed b dev fn c s s₁).scan s₁.next) rest rest' s') :
      Scans lo cur b s (.cons dev fn c below rest)
        (.cons dev fn (closed b dev fn c s s₁).cfg below' rest') s'

theorem Scans.formed (h : Scans lo cur b s X X' s') : Formed lo cur X := by
  induction h with
  | nil => exact .nil
  | func hplace hbridge _ ih => exact .func hplace hbridge ih
  | bridge hplace hbridge hreset _ _ _ ihb ihr => exact .bridge hplace hbridge hreset ihb ihr

theorem Scans.next_eq (h : Scans lo cur b s X X' s') : s'.next = s.next + X.bridges := by
  induction h with
  | nil => rfl
  | func _ hbridge _ ih => rw [ih, Walk.scan_next, Bus.bridges_func hbridge]
  | bridge _ hbridge _ _ _ _ ihb ihr =>
    rw [ihr, Walk.scan_next, ihb, Walk.scan_next, Bus.bridges_bridge hbridge]
    omega

/-- Every bus can be scanned, as long as there are bus numbers for its bridges. -/
theorem Formed.scans (h : Formed lo cur X) (b : Nat) (s : Scan)
    (hfew : s.next + X.bridges ≤ 256) : ∃ X' s', Scans lo cur b s X X' s' := by
  induction h generalizing b s with
  | nil => exact ⟨.nil, s, .nil⟩
  | @func lo cur dev fn c rest hplace hbridge _ ih =>
    rw [Bus.bridges_func hbridge] at hfew
    obtain ⟨rest', s', hrest⟩ := ih b ((entered b dev fn c s).scan s.next)
      (by rw [Walk.scan_next]; exact hfew)
    exact ⟨_, s', .func hplace hbridge hrest⟩
  | @bridge lo cur dev fn c below rest hplace hbridge hreset _ _ ihb ihr =>
    rw [Bus.bridges_bridge hbridge] at hfew
    obtain ⟨below', s₁, hbelow⟩ := ihb s.next ((opened b dev fn c s).scan (s.next + 1))
      (by rw [Walk.scan_next]; omega)
    have hnext := hbelow.next_eq
    rw [Walk.scan_next] at hnext
    obtain ⟨rest', s', hrest⟩ := ihr b ((closed b dev fn c s s₁).scan s₁.next)
      (by rw [Walk.scan_next]; omega)
    exact ⟨_, s', .bridge hplace hbridge hreset (by omega) hbelow hrest⟩

section Loops

variable (scanFunction : Nat → Nat → Ctx → Option Ctx) (bus : BitVec 8)

/-- The device loop from `dev` on. -/
def devLoop (dev : Nat) (ctx : Ctx) : Option Ctx :=
  (List.range' dev (32 - dev)).foldlM (fun ctx dev => pciScanDevice scanFunction bus dev ctx) ctx

/-- The function loop of a multi-function device from `fn` on. -/
def fnLoop (dev fn : Nat) (ctx : Ctx) : Option Ctx :=
  (List.range' fn (8 - fn)).foldlM (fun ctx fn => scanFunction dev fn ctx) ctx

/-- The rest of the scan of a bus, from position `lo` on. -/
def resume (lo : Nat) (cur : Option Nat) (ctx : Ctx) : Option Ctx :=
  match cur with
  | none => devLoop scanFunction bus ((lo + 7) / 8) ctx
  | some dev =>
    (fnLoop scanFunction dev (lo - 8 * dev) ctx).bind (devLoop scanFunction bus (dev + 1))

theorem devLoop_succ (h : dev < 32) (ctx : Ctx) :
    devLoop scanFunction bus dev ctx =
      (pciScanDevice scanFunction bus dev ctx).bind (devLoop scanFunction bus (dev + 1)) := by
  rw [devLoop, show 32 - dev = (32 - (dev + 1)) + 1 by omega, List.range'_succ,
    List.foldlM_cons]
  rfl

theorem devLoop_end (ctx : Ctx) : devLoop scanFunction bus 32 ctx = some ctx := rfl

theorem fnLoop_succ (h : fn < 8) (dev : Nat) (ctx : Ctx) :
    fnLoop scanFunction dev fn ctx =
      (scanFunction dev fn ctx).bind (fnLoop scanFunction dev (fn + 1)) := by
  rw [fnLoop, show 8 - fn = (8 - (fn + 1)) + 1 by omega, List.range'_succ, List.foldlM_cons]
  rfl

end Loops

/-- No function answers at `bus:dev.fn`. -/
def Absent (ctx : Ctx) (bus : BitVec 8) (dev fn : Nat) : Prop :=
  pciCfgRead16 (hostAccess bus dev fn) ctx.walk.cfg 0x00 = 0xFFFF#16

section Skip

variable {scanBus : Ctx → BitVec 8 → Option Ctx} {bus : BitVec 8} {ctx : Ctx}

theorem pciScanFunction_absent (h : Absent ctx bus dev fn) :
    pciScanFunction scanBus bus dev fn ctx = some ctx := if_pos h

theorem pciScanDevice_absent (h : Absent ctx bus dev 0) :
    pciScanDevice scanFunction bus dev ctx = some ctx := if_pos h

theorem devLoop_skip (hle : dev ≤ dev') (hlt : dev' ≤ 32)
    (habs : ∀ d, dev ≤ d → d < dev' → Absent ctx bus d 0) :
    devLoop scanFunction bus dev ctx = devLoop scanFunction bus dev' ctx := by
  induction hle with
  | refl => rfl
  | @step m hle ih =>
    rw [ih (by omega) (fun d h h' => habs d h (by omega)), devLoop_succ _ _ (by omega),
      pciScanDevice_absent (habs m hle (Nat.lt_succ_self m)), Option.bind_some]

theorem fnLoop_skip (hle : fn ≤ fn') (hlt : fn' ≤ 8)
    (habs : ∀ f, fn ≤ f → f < fn' → Absent ctx bus dev f) :
    fnLoop (pciScanFunction scanBus bus) dev fn ctx =
      fnLoop (pciScanFunction scanBus bus) dev fn' ctx := by
  induction hle with
  | refl => rfl
  | @step m hle ih =>
    rw [ih (by omega) (fun f h h' => habs f h (by omega)), fnLoop_succ _ (by omega),
      pciScanFunction_absent (habs m hle (Nat.lt_succ_self m)), Option.bind_some]

/-- The position lies in the multi-function device `cur`, behind its function 0. -/
def Inside (lo : Nat) (cur : Option Nat) : Prop :=
  ∀ d, cur = some d → 8 * d < lo ∧ lo ≤ 8 * d + 8

theorem Placed.inside (h : Placed lo cur dev fn c) :
    Inside (8 * dev + fn + 1) (inDevice cur dev fn c) := by
  have hfn := h.fn_lt
  intro d hd
  rw [inDevice] at hd
  split at hd
  next h0 =>
    split at hd
    · cases hd
      omega
    · cases hd
  next h0 =>
    obtain h0' | hc := h.cur_eq
    · exact absurd h0' h0
    · rw [hc] at hd
      cases hd
      omega

theorem resume_skip (hin : Inside lo cur) (hle : lo ≤ 8 * dev) (hdev : dev ≤ 32)
    (habs : ∀ d f, f < 8 → lo ≤ 8 * d + f → 8 * d + f < 8 * dev → Absent ctx bus d f) :
    resume (pciScanFunction scanBus bus) bus lo cur ctx =
      devLoop (pciScanFunction scanBus bus) bus dev ctx := by
  cases cur with
  | none =>
    exact devLoop_skip (by omega) hdev (fun d h h' => habs d 0 (by omega) (by omega) (by omega))
  | some d =>
    obtain ⟨hlo, hhi⟩ := hin d rfl
    have hfn : fnLoop (pciScanFunction scanBus bus) d (lo - 8 * d) ctx = some ctx :=
      fnLoop_skip (by omega) (Nat.le_refl 8)
        (fun f h h' => habs d f h' (by omega) (by omega))
    rw [resume, hfn, Option.bind_some]
    exact devLoop_skip (by omega) hdev
      (fun d' h h' => habs d' 0 (by omega) (by omega) (by omega))

theorem resume_end (hin : Inside lo cur) (hle : lo ≤ 256)
    (habs : ∀ d f, d < 32 → f < 8 → lo ≤ 8 * d + f → Absent ctx bus d f) :
    resume (pciScanFunction scanBus bus) bus lo cur ctx = some ctx := by
  rw [resume_skip hin hle (Nat.le_refl 32) (fun d f hf h h' => habs d f (by omega) hf h),
    devLoop_end]

theorem resume_step (hin : Inside lo cur) (hp : Placed lo cur dev fn c)
    (habs : ∀ d f, f < 8 → lo ≤ 8 * d + f → 8 * d + f < 8 * dev + fn → Absent ctx bus d f)
    (hvendor : pciCfgRead16 (hostAccess bus dev fn) ctx.walk.cfg 0x00 = vendorId c)
    (hheader : pciCfgRead8 (hostAccess bus dev fn) ctx.walk.cfg 0x0E = headerType c) :
    resume (pciScanFunction scanBus bus) bus lo cur ctx =
      (pciScanFunction scanBus bus dev fn ctx).bind
        (resume (pciScanFunction scanBus bus) bus (8 * dev + fn + 1)
          (inDevice cur dev fn c)) := by
  have hpos := hp.pos
  have hfn := hp.fn_lt
  by_cases h0 : fn = 0
  · subst h0
    rw [resume_skip hin hpos hp.dev_lt.le habs, devLoop_succ _ _ hp.dev_lt, pciScanDevice,
      if_neg (hvendor ▸ hp.vendor), hheader, inDevice, if_pos rfl, ← multiFn]
    cases hm : multiFn c with
    | true =>
      have hrange : List.range 8 = List.range' 0 (8 - 0) := List.range_eq_range'
      simp only [if_true]
      rw [hrange, ← fnLoop, fnLoop_succ _ (by decide), Option.bind_assoc]
      refine congrArg _ (funext fun ctx' => ?_)
      rw [resume, show 8 * dev + 0 + 1 - 8 * dev = 0 + 1 by omega]
    | false =>
      simp only [Bool.false_eq_true, if_false, List.range_one, List.foldlM_cons, List.foldlM_nil]
      refine congrArg₂ _ (bind_pure _) (funext fun ctx' => ?_)
      rw [resume, show (8 * dev + 0 + 1 + 7) / 8 = dev + 1 by omega]
  · obtain h0' | hcur := hp.cur_eq
    · exact absurd h0' h0
    · subst hcur
      obtain ⟨hlo, hhi⟩ := hin dev rfl
      have hskip : fnLoop (pciScanFunction scanBus bus) dev (lo - 8 * dev) ctx =
          fnLoop (pciScanFunction scanBus bus) dev fn ctx :=
        fnLoop_skip (by omega) hfn.le (fun f h h' => habs dev f (by omega) (by omega) (by omega))
      rw [resume, hskip, fnLoop_succ _ hfn, Option.bind_assoc, inDevice, if_neg h0]
      refine congrArg _ (funext fun ctx' => ?_)
      rw [resume, show 8 * dev + fn + 1 - 8 * dev = fn + 1 by omega]

end Skip

theorem Formed.read_type0 (h : Formed lo cur X) (hpos : 8 * dev + fn < lo)
    (k : Nat) : X.read dev fn k .type0 = BitVec.allOnes 32 := by
  induction h with
  | nil => rfl
  | func hp _ _ ih =>
    have h1 := hp.pos
    have h2 := hp.fn_lt
    rw [Bus.read, if_neg (by omega), ih (by omega)]
    rfl
  | bridge hp _ _ _ _ _ ih =>
    have h1 := hp.pos
    have h2 := hp.fn_lt
    rw [Bus.read, if_neg (by omega), ih (by omega)]
    rfl

theorem Formed.write_type0 (h : Formed lo cur X) (hpos : 8 * dev + fn < lo)
    (k : Nat) (v : Word) : X.write dev fn k v .type0 = X := by
  induction h with
  | nil => rfl
  | func hp _ _ ih =>
    have h1 := hp.pos
    have h2 := hp.fn_lt
    rw [Bus.write, if_neg (by omega), ih (by omega)]
  | bridge hp _ _ _ _ _ ih =>
    have h1 := hp.pos
    have h2 := hp.fn_lt
    rw [Bus.write, if_neg (by omega), ih (by omega)]

theorem forward_of_not_bridge (h : isBridge c = false) (b : Nat) : forward c b = none := by
  rw [forward, if_neg]
  rw [h]
  exact fun hc => Bool.false_ne_true hc.1

theorem Formed.read_type1 (h : Formed lo cur X) (hb : 1 ≤ b) (dev fn k : Nat) :
    X.read dev fn k (.type1 b) = BitVec.allOnes 32 := by
  induction h with
  | nil => rfl
  | func _ hbridge _ ih =>
    rw [Bus.read, forward_of_not_bridge hbridge, ih, BitVec.and_allOnes]
  | bridge _ _ hreset _ _ _ ih =>
    rw [Bus.read, hreset.forward_eq hb, ih, BitVec.and_allOnes]

theorem Formed.write_type1 (h : Formed lo cur X) (hb : 1 ≤ b) (dev fn k : Nat) (v : Word) :
    X.write dev fn k v (.type1 b) = X := by
  induction h with
  | nil => rfl
  | func _ hbridge _ ih => rw [Bus.write, forward_of_not_bridge hbridge, ih]
  | bridge _ _ hreset _ _ _ ih => rw [Bus.write, hreset.forward_eq hb, ih]

/-- `fill` puts a bus, from position `lo` on, where bus number `b` is during the scan: cycles
for `b` reach it as Type 0, and those for the bus numbers from `next` on as Type 1. -/
structure Surrounds (fill : Bus → Bus) (b lo next : Nat) : Prop where
  b_lt : b < 256
  next_pos : 1 ≤ next
  read0 : ∀ X dev fn k, fn < 8 → lo ≤ 8 * dev + fn →
    (fill X).read dev fn k (hostCycle b) = X.read dev fn k .type0
  write0 : ∀ X dev fn k v, fn < 8 → lo ≤ 8 * dev + fn →
    (fill X).write dev fn k v (hostCycle b) = fill (X.write dev fn k v .type0)
  read1 : ∀ X dev fn k b', next ≤ b' → b' < 256 →
    (fill X).read dev fn k (.type1 b') = X.read dev fn k (.type1 b')
  write1 : ∀ X dev fn k v b', next ≤ b' → b' < 256 →
    (fill X).write dev fn k v (.type1 b') = fill (X.write dev fn k v (.type1 b'))

namespace Surrounds

theorem host : Surrounds id 0 0 1 where
  b_lt := by decide
  next_pos := Nat.le_refl 1
  read0 _ _ _ _ _ _ := rfl
  write0 _ _ _ _ _ _ _ := rfl
  read1 _ _ _ _ _ _ _ := rfl
  write1 _ _ _ _ _ _ _ _ := rfl

variable {fill : Bus → Bus}

/-- The rest of a bus behind a scanned function that takes no cycles for the later buses. -/
theorem pass (h : Surrounds fill b lo next) (hlo : lo ≤ 8 * dev + fn)
    (hnext : next ≤ next') (hfwd : ∀ b', next' ≤ b' → forward c b' = none) :
    Surrounds (fun X => fill (.cons dev fn c below X)) b (8 * dev + fn + 1) next' where
  b_lt := h.b_lt
  next_pos := h.next_pos.trans hnext
  read0 X d f k hf hp := by
    rw [h.read0 _ _ _ _ hf (by omega), Bus.read, if_neg (by omega), BitVec.allOnes_and]
  write0 X d f k v hf hp := by
    rw [h.write0 _ _ _ _ _ hf (by omega), Bus.write, if_neg (by omega)]
  read1 X d f k b' hb' hlt := by
    rw [h.read1 _ _ _ _ _ (by omega) hlt, Bus.read, hfwd b' hb', BitVec.allOnes_and]
  write1 X d f k v b' hb' hlt := by
    rw [h.write1 _ _ _ _ _ _ (by omega) hlt, Bus.write, hfwd b' hb']

theorem forward_open (hb : isBridge c = true) (hsec : secondary c = next)
    (hsub : subordinate c = 255) (hle : next ≤ b) (hlt : b < 256) :
    forward c b = some (if b = next then .type0 else .type1 b) := by
  rw [forward, if_pos ⟨hb, by omega, by omega⟩, hsec]
  split <;> rfl

theorem descend (h : Surrounds fill b lo next) (hlt : next < 256) (hb : isBridge c = true)
    (hsec : secondary c = next) (hsub : subordinate c = 255) (hrest : Formed lo' cur' rest) :
    Surrounds (fun X => fill (.cons dev fn c X rest)) next 0 (next + 1) where
  b_lt := hlt
  next_pos := by omega
  read0 X d f k hf hp := by
    rw [hostCycle, if_neg (by have := h.next_pos; omega), h.read1 _ _ _ _ _ (Nat.le_refl _) hlt,
      Bus.read, forward_open hb hsec hsub (Nat.le_refl _) hlt, if_pos rfl,
      hrest.read_type1 h.next_pos, BitVec.and_allOnes]
  write0 X d f k v hf hp := by
    rw [hostCycle, if_neg (by have := h.next_pos; omega),
      h.write1 _ _ _ _ _ _ (Nat.le_refl _) hlt, Bus.write,
      forward_open hb hsec hsub (Nat.le_refl _) hlt, if_pos rfl, hrest.write_type1 h.next_pos]
  read1 X d f k b' hb' hlt' := by
    rw [h.read1 _ _ _ _ _ (by omega) hlt', Bus.read,
      forward_open hb hsec hsub (by omega) hlt', if_neg (by omega),
      hrest.read_type1 (by omega), BitVec.and_allOnes]
  write1 X d f k v b' hb' hlt' := by
    rw [h.write1 _ _ _ _ _ _ (by omega) hlt', Bus.write,
      forward_open hb hsec hsub (by omega) hlt', if_neg (by omega),
      hrest.write_type1 (by omega)]

theorem hom (h : Surrounds fill b lo next) (hlo : lo ≤ 8 * dev + fn) (hdev : dev < 32)
    (hfn : fn < 8) (hrest : Formed (8 * dev + fn + 1) cur' rest) :
    funcAccess.Hom (hostAccess (BitVec.ofNat 8 b) dev fn)
      (fun c => fill (.cons dev fn c below rest)) where
  read32 c reg := by
    rw [hostAccess_read32 _ _ hdev hfn, BitVec.toNat_ofNat, Nat.mod_eq_of_lt h.b_lt,
      h.read0 _ _ _ _ hfn hlo, Bus.read, if_pos ⟨rfl, rfl⟩,
      hrest.read_type0 (Nat.lt_succ_self _), BitVec.and_allOnes]
    rfl
  write32 c reg v := by
    rw [hostAccess_write32 _ _ hdev hfn, BitVec.toNat_ofNat, Nat.mod_eq_of_lt h.b_lt,
      h.write0 _ _ _ _ _ hfn hlo, Bus.write, if_pos ⟨rfl, rfl⟩,
      hrest.write_type0 (Nat.lt_succ_self _)]
    rfl

theorem absent (h : Surrounds fill b lo next) (hdev : dev < 32) (hfn : fn < 8)
    (hlo : lo ≤ 8 * dev + fn) (hX : X.read dev fn 0 .type0 = BitVec.allOnes 32)
    {ctx : Ctx} (hctx : ctx.walk.cfg = fill X) : Absent ctx (BitVec.ofNat 8 b) dev fn := by
  rw [Absent, pciCfgRead16, hctx, hostAccess_read32 _ _ hdev hfn, BitVec.toNat_ofNat,
    Nat.mod_eq_of_lt h.b_lt, h.read0 _ _ _ _ hfn hlo, show dword 0 = 0 from rfl, hX]
  rfl

end Surrounds

theorem isBridge_touches (h : Touches ks c c') (h2 : 2 ∉ ks) (h3 : 3 ∉ ks) :
    isBridge c' = isBridge c := by
  have hd3 : c' (dword 0x0E) = c (dword 0x0E) := h.frame 3 h3
  have hd2 : c' (dword 0x0A) = c (dword 0x0A) := h.frame 2 h2
  simp only [isBridge, headerType, classCode, pciCfgRead8, pciCfgRead16, funcAccess, hd2, hd3]

section Bridge

variable (b dev fn : Nat) (c : Config) (s s' : Scan)

theorem entered_touches : Touches functionDwords c (entered b dev fn c s).cfg :=
  enterFunction_touches _ _ (s.walk c)

theorem opened_touches : Touches functionDwords c (opened b dev fn c s).cfg :=
  (entered_touches b dev fn c s).trans ((openBridge_touches _ _ _).mono (by decide))

theorem closed_touches : Touches functionDwords c (closed b dev fn c s s').cfg :=
  (opened_touches b dev fn c s).trans ((closeBridge_touches _ _ (s'.walk _)).mono (by decide))

theorem entered_isBridge : isBridge (entered b dev fn c s).cfg = isBridge c :=
  isBridge_touches (entered_touches b dev fn c s) (by decide) (by decide)

theorem opened_isBridge : isBridge (opened b dev fn c s).cfg = isBridge c :=
  isBridge_touches (opened_touches b dev fn c s) (by decide) (by decide)

theorem closed_isBridge : isBridge (closed b dev fn c s s').cfg = isBridge c :=
  isBridge_touches (closed_touches b dev fn c s s') (by decide) (by decide)

variable {c}

theorem opened_numbers (hreset : BridgeReset c) (hb : b < 256) (hnext : s.next < 256) :
    primary (opened b dev fn c s).cfg = b ∧ secondary (opened b dev fn c s).cfg = s.next ∧
      subordinate (opened b dev fn c s).cfg = 255 := by
  have hrw : BusWritable (entered b dev fn c s).cfg :=
    BusWritable.congr hreset.busRw ((entered_touches b dev fn c s).rw_eq 6)
  have h := openBridge_numbers hrw (BitVec.ofNat 8 b) (BitVec.ofNat 8 s.next)
  rwa [BitVec.toNat_ofNat, BitVec.toNat_ofNat, Nat.mod_eq_of_lt hb, Nat.mod_eq_of_lt hnext] at h

theorem closed_numbers (hreset : BridgeReset c) (hb : b < 256) (hnext : s.next < 256)
    (hpos : 1 ≤ s'.next) (hle : s'.next ≤ 256) :
    primary (closed b dev fn c s s').cfg = b ∧ secondary (closed b dev fn c s s').cfg = s.next ∧
      subordinate (closed b dev fn c s s').cfg = s'.next - 1 := by
  have hrw : BusWritable (opened b dev fn c s).cfg :=
    BusWritable.congr hreset.busRw ((opened_touches b dev fn c s).rw_eq 6)
  obtain ⟨hp, hs, _⟩ := opened_numbers b dev fn s hreset hb hnext
  obtain ⟨hp', hs', hsub⟩ := closeBridge_numbers (w := s'.walk (opened b dev fn c s).cfg) hrw
    (opened b dev fn c s).alloc (BitVec.ofNat 8 s'.next - 1#8)
  refine ⟨hp'.trans hp, hs'.trans hs, hsub.trans ?_⟩
  rw [BitVec.toNat_sub, BitVec.toNat_ofNat, BitVec.toNat_ofNat]
  omega

theorem closed_forward (hreset : BridgeReset c) (hb : b < 256) (hnext : s.next < 256)
    (hpos : 1 ≤ s'.next) (hle : s'.next ≤ 256) (b' : Nat) (hb' : s'.next ≤ b') :
    forward (closed b dev fn c s s').cfg b' = none := by
  obtain ⟨_, _, hsub⟩ := closed_numbers b dev fn s s' hreset hb hnext hpos hle
  rw [forward, if_neg]
  rw [hsub]
  omega

end Bridge

/-- The state of the walker for a scan of the fabric `X`. -/
def Scan.ctx (s : Scan) (X : Bus) : Ctx := ⟨s.walk X, BitVec.ofNat 8 s.next⟩

theorem Walk.map_ctx (f : σ → Bus) (w : Walk σ) (n : Nat) :
    (⟨w.map f, BitVec.ofNat 8 n⟩ : Ctx) = (w.scan n).ctx (f w.cfg) := rfl

theorem Scan.map_walk (f : σ → τ) (s : Scan) (c : σ) : (s.walk c).map f = s.walk (f c) := rfl

section Equations

variable {scanBus : Ctx → BitVec 8 → Option Ctx}

theorem pciScanFunction_eq_func (ctx : Ctx) (h : Header)
    (hh : readHeader (hostAccess bus dev fn) ctx.walk.cfg = h)
    (hv : h.vendor ≠ 0xFFFF#16) (hb : h.isBridge = false)
    (hw : enterFunction (hostAccess bus dev fn) ⟨bus, dev, fn⟩ h ctx.walk = w) :
    pciScanFunction scanBus bus dev fn ctx = some ⟨w, ctx.nextBus⟩ := by
  subst hh hw
  rw [pciScanFunction, if_neg hv, hb]
  rfl

theorem pciScanFunction_eq_bridge (ctx : Ctx) (h : Header)
    (hh : readHeader (hostAccess bus dev fn) ctx.walk.cfg = h)
    (hv : h.vendor ≠ 0xFFFF#16) (hb : h.isBridge = true)
    (hw : openBridge (hostAccess bus dev fn) bus ctx.nextBus
      (enterFunction (hostAccess bus dev fn) ⟨bus, dev, fn⟩ h ctx.walk) = w)
    (hscan : scanBus ⟨w, ctx.nextBus + 1#8⟩ ctx.nextBus = some ⟨w', next⟩)
    (hclose : closeBridge (hostAccess bus dev fn) w.alloc (next - 1#8) w' = w'') :
    pciScanFunction scanBus bus dev fn ctx = some ⟨w'', next⟩ := by
  subst hh hw hclose
  rw [pciScanFunction, if_neg hv, hb]
  simp only [if_true, hscan, Option.map_some]

end Equations

section Element

variable {fill : Bus → Bus} {s : Scan}

theorem pciScanFunction_func (hplace : Placed lo cur dev fn c)
    (hrest : Formed (8 * dev + fn + 1) cur' rest) (h : Surrounds fill b lo s.next)
    (hbridge : isBridge c = false) (scanBus : Ctx → BitVec 8 → Option Ctx) :
    pciScanFunction scanBus (BitVec.ofNat 8 b) dev fn (s.ctx (fill (.cons dev fn c below rest))) =
      some (((entered b dev fn c s).scan s.next).ctx
        (fill (.cons dev fn (entered b dev fn c s).cfg below rest))) := by
  have hom : funcAccess.Hom (hostAccess (BitVec.ofNat 8 b) dev fn)
      (fun c => fill (.cons dev fn c below rest)) :=
    h.hom hplace.pos hplace.dev_lt hplace.fn_lt hrest
  have hread : readHeader (hostAccess (BitVec.ofNat 8 b) dev fn)
      (fill (.cons dev fn c below rest)) = readHeader funcAccess c := hom.readHeader c
  have henter := hom.enterFunction ⟨BitVec.ofNat 8 b, dev, fn⟩ (readHeader funcAccess c)
    (s.walk c)
  rw [Scan.map_walk, ← entered] at henter
  rw [pciScanFunction_eq_func (s.ctx (fill (.cons dev fn c below rest))) (readHeader funcAccess c)
    hread hplace.vendor hbridge henter]
  exact congrArg some (Walk.map_ctx _ (entered b dev fn c s) s.next)

theorem pciScanFunction_bridge (hplace : Placed lo cur dev fn c)
    (hrest : Formed (8 * dev + fn + 1) cur' rest) (h : Surrounds fill b lo s.next)
    (hbridge : isBridge c = true) {scanBus : Ctx → BitVec 8 → Option Ctx}
    (hbelow : scanBus (((opened b dev fn c s).scan (s.next + 1)).ctx
        (fill (.cons dev fn (opened b dev fn c s).cfg below rest))) (BitVec.ofNat 8 s.next) =
      some (s'.ctx (fill (.cons dev fn (opened b dev fn c s).cfg below' rest)))) :
    pciScanFunction scanBus (BitVec.ofNat 8 b) dev fn (s.ctx (fill (.cons dev fn c below rest))) =
      some (((closed b dev fn c s s').scan s'.next).ctx
        (fill (.cons dev fn (closed b dev fn c s s').cfg below' rest))) := by
  have hom (X : Bus) : funcAccess.Hom (hostAccess (BitVec.ofNat 8 b) dev fn)
      (fun c => fill (.cons dev fn c X rest)) :=
    h.hom hplace.pos hplace.dev_lt hplace.fn_lt hrest
  have hread : readHeader (hostAccess (BitVec.ofNat 8 b) dev fn)
      (fill (.cons dev fn c below rest)) = readHeader funcAccess c := (hom below).readHeader c
  have henter := (hom below).enterFunction ⟨BitVec.ofNat 8 b, dev, fn⟩ (readHeader funcAccess c)
    (s.walk c)
  rw [Scan.map_walk, ← entered] at henter
  have hopen := (hom below).openBridge (BitVec.ofNat 8 b) (BitVec.ofNat 8 s.next)
    (entered b dev fn c s)
  rw [← henter, ← opened] at hopen
  rw [← Walk.map_ctx (fun c => fill (.cons dev fn c below rest)), BitVec.ofNat_add] at hbelow
  have hclose := (hom below').closeBridge (opened b dev fn c s).alloc
    (BitVec.ofNat 8 s'.next - 1#8) (s'.walk (opened b dev fn c s).cfg)
  rw [Scan.map_walk, ← closed] at hclose
  rw [pciScanFunction_eq_bridge (s.ctx (fill (.cons dev fn c below rest)))
    (readHeader funcAccess c) hread hplace.vendor hbridge hopen hbelow hclose]
  exact congrArg some (Walk.map_ctx _ (closed b dev fn c s s') s'.next)

end Element

theorem pciScanBus_eq_resume (n : Nat) (ctx : Ctx) (bus : BitVec 8) :
    pciScanBus (n + 1) ctx bus =
      resume (pciScanFunction (pciScanBus n) bus) bus 0 none ctx := by
  rw [pciScanBus, List.range_eq_range']
  rfl

theorem resume_cons {s : Scan} (hin : Inside lo cur) (hplace : Placed lo cur dev fn c)
    (hrest : Formed (8 * dev + fn + 1) cur' rest) (h : Surrounds fill b lo s.next)
    (scanBus : Ctx → BitVec 8 → Option Ctx) :
    resume (pciScanFunction scanBus (BitVec.ofNat 8 b)) (BitVec.ofNat 8 b) lo cur
        (s.ctx (fill (.cons dev fn c below rest))) =
      (pciScanFunction scanBus (BitVec.ofNat 8 b) dev fn
        (s.ctx (fill (.cons dev fn c below rest)))).bind
        (resume (pciScanFunction scanBus (BitVec.ofNat 8 b)) (BitVec.ofNat 8 b)
          (8 * dev + fn + 1) (inDevice cur dev fn c)) := by
  have hdev := hplace.dev_lt
  have hom : funcAccess.Hom (hostAccess (BitVec.ofNat 8 b) dev fn)
      (fun c => fill (.cons dev fn c below rest)) :=
    h.hom hplace.pos hdev hplace.fn_lt hrest
  refine resume_step hin hplace ?_ (hom.read16 c 0x00) (hom.read8 c 0x0E)
  intro d f hf hlo hlt
  refine h.absent (by have := hplace.fn_lt; omega) hf hlo ?_ rfl
  rw [Bus.read, if_neg (by omega), hrest.read_type0 (by omega), BitVec.and_allOnes]

/-- The walker, wherever it is in the fabric, does the scan of the tree. -/
theorem Scans.resume_eq (hX : Scans lo cur b s X X' s') (hin : Inside lo cur) (hlo : lo ≤ 256)
    (h : Surrounds fill b lo s.next) (hdepth : X.depth ≤ n) :
    resume (pciScanFunction (pciScanBus n) (BitVec.ofNat 8 b)) (BitVec.ofNat 8 b) lo cur
        (s.ctx (fill X)) = some (s'.ctx (fill X')) := by
  induction hX generalizing fill n with
  | nil => exact resume_end hin hlo (fun d f hd hf hp => h.absent hd hf hp rfl rfl)
  | @func lo cur dev fn c b s rest rest' s' hplace hbridge hrest ih =>
    have hdev := hplace.dev_lt
    have hfn := hplace.fn_lt
    rw [Bus.depth, hbridge] at hdepth
    have hfwd (b' : Nat) (_ : s.next ≤ b') : forward (entered b dev fn c s).cfg b' = none :=
      forward_of_not_bridge ((entered_isBridge b dev fn c s).trans hbridge) b'
    have hpass : Surrounds (fun X => fill (.cons dev fn (entered b dev fn c s).cfg .nil X)) b
        (8 * dev + fn + 1) ((entered b dev fn c s).scan s.next).next := by
      rw [Walk.scan_next]
      exact h.pass hplace.pos (Nat.le_refl _) hfwd
    rw [resume_cons hin hplace hrest.formed h, pciScanFunction_func hplace hrest.formed h hbridge,
      Option.bind_some]
    exact ih hplace.inside (by omega) hpass (Nat.le_trans (Nat.le_max_right _ _) hdepth)
  | @bridge lo cur dev fn c b s below below' s₁ rest rest' s' hplace hbridge hreset hle hbelow
      hrest ihb ihr =>
    have hdev := hplace.dev_lt
    have hfn := hplace.fn_lt
    have hpos := h.next_pos
    have hnext := hbelow.next_eq
    rw [Walk.scan_next] at hnext
    rw [Bus.depth, if_pos hbridge] at hdepth
    obtain ⟨m, rfl⟩ : ∃ m, n = m + 1 := ⟨n - 1, by omega⟩
    obtain ⟨-, hsec, hsub⟩ := opened_numbers b dev fn s hreset h.b_lt (by omega)
    have hdown : Surrounds (fun X => fill (.cons dev fn (opened b dev fn c s).cfg X rest))
        s.next 0 ((opened b dev fn c s).scan (s.next + 1)).next := by
      rw [Walk.scan_next]
      exact h.descend (by omega) ((opened_isBridge b dev fn c s).trans hbridge) hsec hsub
        hrest.formed
    have hscan := ihb (fun d hd => absurd hd (by simp)) (by decide) hdown
      (Nat.le_of_succ_le_succ (Nat.le_trans (Nat.le_max_left _ _) hdepth))
    rw [← pciScanBus_eq_resume] at hscan
    have hfwd := closed_forward b dev fn s s₁ hreset h.b_lt (by omega) (by omega) hle
    have hpass : Surrounds (fun X => fill (.cons dev fn (closed b dev fn c s s₁).cfg below' X)) b
        (8 * dev + fn + 1) ((closed b dev fn c s s₁).scan s₁.next).next := by
      rw [Walk.scan_next]
      exact h.pass hplace.pos (by omega) hfwd
    rw [resume_cons hin hplace hrest.formed h,
      pciScanFunction_bridge hplace hrest.formed h hbridge hscan, Option.bind_some]
    exact ihr hplace.inside (by omega) hpass (Nat.le_trans (Nat.le_max_right _ _) hdepth)

/-- The state before the walk of a host. -/
def Scan.reset : Scan := ⟨1, Alloc.reset, []⟩

theorem pciWalkHost_eq (n : Nat) (root : Bus) :
    pciWalkHost n root = pciScanBus n (Scan.reset.ctx root) (BitVec.ofNat 8 0) := rfl

/-- The walk of one host terminates, and is the scan of the tree from bus 0. -/
theorem Topology.walk (t : Topology) :
    ∃ X s, Scans 0 none 0 Scan.reset t.bus X s ∧
      ∀ n, t.bus.depth < n → pciWalkHost n t.bus = some (s.ctx X) := by
  obtain ⟨X, s, hscan⟩ := t.formed.scans 0 Scan.reset
    (by have := t.bridges_le; simp only [Scan.reset]; omega)
  refine ⟨X, s, hscan, fun n hn => ?_⟩
  obtain ⟨m, rfl⟩ : ∃ m, n = m + 1 := ⟨n - 1, by omega⟩
  have hroot : Surrounds id 0 0 Scan.reset.next := Surrounds.host
  have hwalk := hscan.resume_eq (fun d hd => absurd hd (by simp)) (by decide) hroot
    (Nat.le_of_lt_succ hn)
  rw [pciWalkHost_eq, pciScanBus_eq_resume]
  exact hwalk

/-- What holds of the scan of each host holds after `pci_walk`, which ends. -/
theorem pciWalk_satisfies (t₀ t₁ : Topology) {P₀ P₁ : Ctx → Prop}
    (h₀ : ∀ X s, Scans 0 none 0 Scan.reset t₀.bus X s → P₀ (s.ctx X))
    (h₁ : ∀ X s, Scans 0 none 0 Scan.reset t₁.bus X s → P₁ (s.ctx X)) :
    ∃ depth, ∀ k, ∃ ctx₀ ctx₁, pciWalk (depth + k) t₀.bus t₁.bus = some (ctx₀, ctx₁) ∧
      P₀ ctx₀ ∧ P₁ ctx₁ := by
  obtain ⟨X₀, s₀, hscan₀, hwalk₀⟩ := t₀.walk
  obtain ⟨X₁, s₁, hscan₁, hwalk₁⟩ := t₁.walk
  refine ⟨t₀.bus.depth + t₁.bus.depth + 1, fun k => ⟨s₀.ctx X₀, s₁.ctx X₁, ?_,
    h₀ X₀ s₀ hscan₀, h₁ X₁ s₁ hscan₁⟩⟩
  rw [pciWalk, hwalk₀ _ (by omega), hwalk₁ _ (by omega)]
  rfl

end Pegasos2.Pci
