import Mathlib.Tactic.Common

namespace Pegasos2.ClientInterface
set_option autoImplicit true

abbrev Cell := BitVec 32

/-- The array of a client-interface call: the service name (`none` for a NULL pointer), the
arguments and the number of return cells. -/
structure Call where
  service : Option (List Char)
  args : List Cell
  nrets : Nat
  deriving DecidableEq

/-- The result of a call, with the return cells behind the arguments. -/
structure Reply where
  rc : Int
  rets : Nat → Cell

/-- What the firmware answers to one call. -/
structure Host where
  clientInterface : Call → Reply
  /-- The length of the name of the next property, or -1, in `nextprop`. -/
  nextprop : Call → Cell

def startsWith (start : String) (name : List Char) : Bool := start.toList.isPrefixOf name

def isCallm (name : List Char) : Bool := startsWith "call-m" name

def isIo (name : List Char) : Bool :=
  name == "read".toList || name == "write".toList || name == "seek".toList

/-- The position of the ihandle among the arguments. -/
def Call.slot (c : Call) : Option Nat :=
  match c.service with
  | none => none
  | some name =>
    if isCallm name && 2 ≤ c.args.length then some 1
    else if isIo name && 1 ≤ c.args.length then some 0
    else none

/-- `amigaboot_ihandle_fixup_in`, with the new `g_last_ihandle`. -/
def fixupIn (last : Cell) (c : Call) : Cell × Call :=
  match c.slot with
  | none => (last, c)
  | some i =>
    let ih := c.args.getD i 0
    if ih = 0 ∧ last ≠ 0 then (last, { c with args := c.args.set i last })
    else if ih ≠ 0 then (ih, c)
    else (last, c)

/-- `amigaboot_ihandle_track_open`. -/
def trackOpen (last : Cell) (c : Call) (r : Reply) : Cell :=
  match c.service with
  | none => last
  | some name =>
    if r.rc ≠ 0 ∨ c.nrets < 1 then last
    else if startsWith "open" name && r.rets 0 ≠ 0 then r.rets 0
    else last

def isNextprop (c : Call) : Bool :=
  startsWith "nextpr" (c.service.getD []) && c.args.length == 3 && c.nrets == 1

/-- One call as it happened: as the client made it, as the services saw it, and its result. -/
structure Event where
  call : Call
  seen : Call
  reply : Reply

def ciDispatch (host : Host) (last : Cell) (c : Call) : Cell × Event :=
  let (last, seen) := fixupIn last c
  let reply := if isNextprop seen then ⟨0, fun _ => host.nextprop seen⟩
    else host.clientInterface seen
  (trackOpen last seen reply, ⟨c, seen, reply⟩)

/-- A run of calls, the latest first, with what the firmware answered to each: the final
`g_last_ihandle` and the events, the latest first. -/
def run : List (Host × Call) → Cell × List Event
  | [] => (0, [])
  | (host, c) :: earlier =>
    let (last, past) := run earlier
    let (last, e) := ciDispatch host last c
    (last, e :: past)

/-- The ihandle that a call passes. -/
def Call.ihandle (c : Call) : Option Cell := c.slot.map fun i => c.args.getD i 0

/-- The handle that a call has opened. -/
def Event.opens (e : Event) : Option Cell :=
  match e.call.service with
  | none => none
  | some name =>
    if startsWith "open" name && e.reply.rc == 0 && 1 ≤ e.call.nrets && e.reply.rets 0 ≠ 0 then
      some (e.reply.rets 0)
    else none

/-- The handle that a call has used. -/
def Event.uses (e : Event) : Option Cell :=
  match e.call.ihandle with
  | some ih => if ih ≠ 0 then some ih else none
  | none => none

/-- The handle that a call has closed. -/
def Event.closes (e : Event) : Option Cell :=
  if e.call.service = some "close".toList ∧ e.reply.rc = 0 then e.call.args.head? else none

def Event.names (e : Event) : Option Cell := e.opens.or e.uses

/-- The handle that was opened or used last. -/
def lastNamed : List Event → Option Cell
  | [] => none
  | e :: past => e.names.or (lastNamed past)

/-- A handle whose close has succeeded and that has not been opened again. -/
def isClosed (h : Cell) : List Event → Bool
  | [] => false
  | e :: past =>
    if e.opens = some h then false
    else if e.closes = some h then true
    else isClosed h past

/-- No ihandle but NULL is replaced, and NULL by a handle that an earlier call opened or used
and that is not closed. -/
def SoundAt (past : List Event) (e : Event) : Prop :=
  e.seen = e.call ∨
    e.call.ihandle = some 0 ∧ ∃ i h, e.call.slot = some i ∧ h ≠ 0 ∧
      e.seen = { e.call with args := e.call.args.set i h } ∧
      (∃ e' ∈ past, e'.names = some h) ∧ isClosed h past = false

def Sound : List Event → Prop
  | [] => True
  | e :: past => SoundAt past e ∧ Sound past

/-- No call passes a NULL ihandle while the handle that was opened or used last is closed. -/
def Careful : List Event → Prop
  | [] => True
  | e :: past =>
    (e.call.ihandle = some 0 → ∀ h, lastNamed past = some h → isClosed h past = false) ∧
      Careful past

theorem Call.slot_lt {c : Call} (h : c.slot = some i) : i < c.args.length := by
  rw [slot] at h
  split at h
  · exact absurd h (Option.some_ne_none i).symm
  · split at h
    next hlen =>
      obtain rfl := Option.some.inj h
      exact of_decide_eq_true (Bool.and_eq_true _ _ ▸ hlen).2
    next =>
      split at h
      next hlen =>
        obtain rfl := Option.some.inj h
        exact of_decide_eq_true (Bool.and_eq_true _ _ ▸ hlen).2
      next => exact absurd h (Option.some_ne_none i).symm

/-- What the fixup does: it remembers the ihandle of the call, or puts the remembered one in the
place of NULL, or does nothing. -/
theorem fixupIn_cases (last : Cell) (c : Call) :
    (∃ ih, c.ihandle = some ih ∧ ih ≠ 0 ∧ fixupIn last c = (ih, c)) ∨
      (∃ i, c.ihandle = some 0 ∧ c.slot = some i ∧ last ≠ 0 ∧
        fixupIn last c = (last, { c with args := c.args.set i last })) ∨
      (c.ihandle ≠ some 0 ∨ last = 0) ∧ (∀ ih, c.ihandle = some ih → ih = 0) ∧
        fixupIn last c = (last, c) := by
  rw [fixupIn, Call.ihandle]
  cases c.slot with
  | none => exact .inr (.inr ⟨.inl (by simp), by simp, rfl⟩)
  | some i =>
    simp only [Option.map_some]
    by_cases hih : c.args.getD i 0 = 0
    · by_cases hlast : last = 0
      · refine .inr (.inr ⟨.inr hlast, fun ih h => (Option.some.inj h) ▸ hih, ?_⟩)
        rw [if_neg fun h => h.2 hlast, if_neg fun h => h hih]
      · refine .inr (.inl ⟨i, by rw [hih], rfl, hlast, ?_⟩)
        rw [if_pos ⟨hih, hlast⟩]
    · refine .inl ⟨c.args.getD i 0, rfl, hih, ?_⟩
      rw [if_neg fun h => hih h.1, if_pos hih]

theorem fixupIn_last (last : Cell) (c : Call) (seen : Call) (r : Reply) :
    (fixupIn last c).1 = (Event.uses ⟨c, seen, r⟩).getD last := by
  rw [Event.uses]
  obtain ⟨ih, hih, hne, heq⟩ | ⟨i, hih, -, -, heq⟩ | ⟨-, hzero, heq⟩ := fixupIn_cases last c
  · rw [heq, hih]
    simp only [if_pos hne, Option.getD_some]
  · rw [heq, hih]
    rfl
  · rw [heq]
    cases hih : c.ihandle with
    | none => rfl
    | some ih =>
      rw [hzero ih hih]
      rfl

theorem fixupIn_header (last : Cell) (c : Call) :
    (fixupIn last c).2.service = c.service ∧ (fixupIn last c).2.nrets = c.nrets := by
  obtain ⟨ih, -, -, heq⟩ | ⟨i, -, -, -, heq⟩ | ⟨-, -, heq⟩ := fixupIn_cases last c
  · rw [heq]
    exact ⟨rfl, rfl⟩
  · rw [heq]
    exact ⟨rfl, rfl⟩
  · rw [heq]
    exact ⟨rfl, rfl⟩

theorem trackOpen_eq (last : Cell) (c seen : Call) (r : Reply) (hservice : seen.service = c.service)
    (hnrets : seen.nrets = c.nrets) :
    trackOpen last seen r = (Event.opens ⟨c, seen, r⟩).getD last := by
  rw [trackOpen, Event.opens, hservice, hnrets]
  cases c.service with
  | none => rfl
  | some name =>
    simp only
    by_cases hfail : r.rc ≠ 0 ∨ c.nrets < 1
    · rw [if_pos hfail, if_neg]
      · rfl
      · simp only [Bool.and_eq_true, beq_iff_eq, decide_eq_true_eq]
        omega
    · rw [not_or, not_not, Nat.not_lt] at hfail
      rw [if_neg (by omega)]
      by_cases hopen : startsWith "open" name = true ∧ r.rets 0 ≠ 0
      · rw [if_pos (by simpa [hopen.1] using hopen.2),
          if_pos (by simpa [hopen.1, hfail] using hopen.2)]
        rfl
      · have hopen' : ¬ (startsWith "open" name && decide (r.rets 0 ≠ 0)) = true := by
          simpa using hopen
        rw [if_neg hopen', if_neg]
        · rfl
        · intro h
          simp only [Bool.and_eq_true, decide_eq_true_eq] at h
          exact hopen ⟨h.1.1.1, h.2⟩

theorem ciDispatch_last (host : Host) (last : Cell) (c : Call) :
    (ciDispatch host last c).1 = (ciDispatch host last c).2.names.getD last := by
  obtain ⟨hservice, hnrets⟩ := fixupIn_header last c
  simp only [ciDispatch]
  generalize (if isNextprop (fixupIn last c).2 then _ else _ : Reply) = r
  rw [trackOpen_eq _ c _ _ hservice hnrets, fixupIn_last last c (fixupIn last c).2 r, Event.names]
  cases Event.opens ⟨c, (fixupIn last c).2, r⟩ with
  | none => rfl
  | some h => rfl

theorem run_last (l : List (Host × Call)) : (run l).1 = (lastNamed (run l).2).getD 0 := by
  induction l with
  | nil => rfl
  | cons s earlier ih =>
    obtain ⟨host, c⟩ := s
    have hlast := ciDispatch_last host (run earlier).1 c
    simp only [run, lastNamed]
    rw [hlast, ih]
    cases (ciDispatch host _ c).2.names with
    | none => rfl
    | some h => rfl

theorem Event.names_ne_zero {e : Event} (h : e.names = some ih) : ih ≠ 0 := by
  rw [names, Option.or_eq_some_iff] at h
  obtain h | ⟨-, h⟩ := h
  · rw [opens] at h
    split at h
    · exact absurd h (Option.some_ne_none ih).symm
    · split at h
      next hopen =>
        obtain rfl := Option.some.inj h
        exact of_decide_eq_true (Bool.and_eq_true _ _ ▸ hopen).2
      next => exact absurd h (Option.some_ne_none ih).symm
  · rw [uses] at h
    split at h
    · split at h
      next hne =>
        obtain rfl := Option.some.inj h
        exact hne
      next => exact absurd h (Option.some_ne_none ih).symm
    · exact absurd h (Option.some_ne_none ih).symm

theorem lastNamed_mem (h : lastNamed past = some ih) : ∃ e ∈ past, e.names = some ih := by
  induction past with
  | nil => exact absurd h (Option.some_ne_none ih).symm
  | cons e past hrec =>
    rw [lastNamed, Option.or_eq_some_iff] at h
    obtain h | ⟨-, h⟩ := h
    · exact ⟨e, List.mem_cons_self, h⟩
    · obtain ⟨e', he', hn⟩ := hrec h
      exact ⟨e', List.mem_cons_of_mem _ he', hn⟩

theorem ciDispatch_sound (host : Host) (c : Call) (past : List Event) :
    SoundAt past (ciDispatch host ((lastNamed past).getD 0) c).2 ↔
      (c.ihandle = some 0 → ∀ h, lastNamed past = some h → isClosed h past = false) := by
  have hnz : ∀ h, lastNamed past = some h → h ≠ 0 := fun h hl => by
    obtain ⟨e, -, he⟩ := lastNamed_mem hl
    exact e.names_ne_zero he
  generalize hlast : (lastNamed past).getD 0 = last
  have hseen : (ciDispatch host last c).2.seen = (fixupIn last c).2 := rfl
  have hcall : (ciDispatch host last c).2.call = c := rfl
  rw [SoundAt, hseen, hcall]
  obtain ⟨ih, hih, hne, heq⟩ | ⟨i, hih, hslot, hne, heq⟩ | ⟨hnull, -, heq⟩ :=
    fixupIn_cases last c
  · rw [heq]
    exact ⟨fun _ h => absurd (Option.some.inj (hih.symm.trans h)) hne, fun _ => .inl rfl⟩
  · have hnamed : lastNamed past = some last := by
      cases hl : lastNamed past with
      | none =>
        rw [hl] at hlast
        exact absurd hlast.symm hne
      | some h =>
        rw [hl] at hlast
        rw [← hlast]
        rfl
    have hi := c.slot_lt hslot
    rw [heq]
    constructor
    · rintro (hsame | ⟨-, i', h, hslot', -, hargs, -, hopen⟩) - h' hl
      · -- the substituted array differs from the client's
        have hargs : c.args.set i last = c.args := congrArg Call.args hsame
        have hget : c.args[i]? = some last := by
          rw [← hargs, List.getElem?_set_self hi]
        rw [Call.ihandle, hslot, Option.map_some, List.getD_eq_getElem?_getD, hget] at hih
        exact absurd (Option.some.inj hih) hne
      · obtain rfl := Option.some.inj (hslot.symm.trans hslot')
        have hargs' : c.args.set i last = c.args.set i h := congrArg Call.args hargs
        have hget : some last = some h := by
          rw [← List.getElem?_set_self (l := c.args) (a := last) hi, hargs',
            List.getElem?_set_self hi]
        rw [hnamed] at hl
        rw [← Option.some.inj hl, Option.some.inj hget]
        exact hopen
    · intro hcareful
      exact .inr ⟨hih, i, last, hslot, hne, rfl, lastNamed_mem hnamed, hcareful hih last hnamed⟩
  · rw [heq]
    refine ⟨fun _ h ih hl => ?_, fun _ => .inl rfl⟩
    obtain hnull | hzero := hnull
    · exact absurd h hnull
    · rw [hl] at hlast
      exact absurd (hlast.trans hzero) (hnz ih hl)

/-- The ihandles that a run substitutes are sound just if the client never passes NULL while the
handle it opened or used last is closed. -/
theorem run_sound_iff (l : List (Host × Call)) : Sound (run l).2 ↔ Careful (run l).2 := by
  induction l with
  | nil => exact Iff.rfl
  | cons s earlier ih =>
    obtain ⟨host, c⟩ := s
    have hstep := ciDispatch_sound host c (run earlier).2
    rw [← run_last earlier] at hstep
    exact and_congr hstep ih

def answering (rc : Int) (ret : Cell) : Host := ⟨fun _ => ⟨rc, fun _ => ret⟩, fun _ => 0⟩

/-- A disk is opened as 0x00A01000, a block size asked for with a NULL ihandle, the disk closed,
and the next call has a NULL ihandle again. -/
def scan : List (Host × Call) :=
  [(answering 0 0, ⟨some "call-method".toList, [0x00200100#32, 0#32], 1⟩),
    (answering 0 0, ⟨some "close".toList, [0x00A01000#32], 0⟩),
    (answering 0 512#32, ⟨some "call-method".toList, [0x00200140#32, 0#32], 2⟩),
    (answering 0 0x00A01000#32, ⟨some "open".toList, [0x00200180#32], 1⟩)]

theorem scan_substitutes_closed :
    (run scan).2.map (·.seen.args) = [[0x00200100#32, 0x00A01000#32], [0x00A01000#32],
        [0x00200140#32, 0x00A01000#32], [0x00200180#32]] ∧
      isClosed 0x00A01000#32 (run scan).2 = true ∧ ¬ Sound (run scan).2 := by
  refine ⟨by decide, by decide, fun h => ?_⟩
  have hsound := (ciDispatch_sound (answering 0 0) ⟨some "call-method".toList,
    [0x00200100#32, 0#32], 1⟩ (run scan.tail).2).1 h.1 (by decide) 0x00A01000#32 (by decide)
  exact absurd hsound (by decide)

example : Careful (run scan.tail).2 := by
  refine ⟨fun h => absurd h (by decide), fun _ h hl => ?_, fun h => absurd h (by decide), trivial⟩
  obtain rfl : 0x00A01000#32 = h := Option.some.inj hl
  decide

end Pegasos2.ClientInterface
