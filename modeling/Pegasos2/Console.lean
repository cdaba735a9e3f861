import Pegasos2.RingBuffer

namespace Pegasos2.Console
open RingBuffer
set_option autoImplicit true

def rxRingSize : Nat := 128

/-- Where `failsafe_read` stands, with its `len` and the bytes it has put into `buf`. -/
inductive Reader where
  | idle
  | popHead (len : Nat) (buf : List UInt8)
  | popTail (len : Nat) (buf : List UInt8) (head : Nat)
  | popByte (len : Nat) (buf : List UInt8)
  | popAdvance (len : Nat) (buf : List UInt8) (c : UInt8)
  | pollStatus (len : Nat) (buf : List UInt8)
  | pollData (len : Nat) (buf : List UInt8)

def Reader.buf : Reader → List UInt8
  | .idle => []
  | .popHead _ buf => buf
  | .popTail _ buf _ => buf
  | .popByte _ buf => buf
  | .popAdvance _ buf _ => buf
  | .pollStatus _ buf => buf
  | .pollData _ buf => buf

/-- The receive side of the console. `arrived`, `dropped` and `returned` only record what has
happened: the bytes that reached the UART, the positions among them of those that the handler
dropped, and the bytes that finished calls of `failsafe_read` have returned. -/
structure State where
  ring : Ring UInt8 rxRingSize
  fifo : List UInt8
  inHandler : Bool
  reader : Reader
  arrived : List UInt8
  dropped : List Nat
  returned : List UInt8

def State.init : State where
  ring := ⟨fun _ => 0, 0, 0, by decide, by decide⟩
  fifo := []
  inHandler := false
  reader := .idle
  arrived := []
  dropped := []
  returned := []

inductive Action where
  /-- A byte arrives in the UART. -/
  | arrive (c : UInt8)
  /-- The external interrupt enters `uart_rx_handler`. -/
  | interrupt
  /-- One round of the loop of `uart_rx_handler`. -/
  | drain
  /-- A call of `failsafe_read`. -/
  | call (bufIsNull : Bool) (len : Int)
  /-- One step of `failsafe_read`. `stale` is what the receive buffer register gives when it is
  empty. -/
  | read (stale : UInt8)

namespace State

/-- The position among the arrived bytes of the one at the front of the UART. -/
def position (s : State) : Nat := s.arrived.length - s.fifo.length

/-- A round of the handler: a byte is put into the ring, or dropped when the ring is full. -/
def drain (s : State) : State :=
  match s.fifo with
  | [] => { s with inHandler := false }
  | c :: rest =>
    if s.ring.next ≠ s.ring.tail then { s with ring := s.ring.put c, fifo := rest }
    else { s with fifo := rest, dropped := s.dropped ++ [s.position] }

def finish (s : State) (buf : List UInt8) : State :=
  { s with reader := .idle, returned := s.returned ++ buf }

/-- The loop test `n < len` after a byte: on with `more`, or return. -/
def loop (s : State) (len : Nat) (buf : List UInt8) (more : Reader) : State :=
  if buf.length < len then { s with reader := more } else s.finish buf

def read (s : State) (stale : UInt8) : Option State :=
  match s.reader with
  | .idle => none
  | .popHead len buf => some { s with reader := .popTail len buf s.ring.head }
  | .popTail len buf head =>
    if head = s.ring.tail then some { s with reader := .pollStatus len buf }
    else some { s with reader := .popByte len buf }
  | .popByte len buf => some { s with reader := .popAdvance len buf s.ring.front }
  | .popAdvance len buf c =>
    some ({ s with ring := s.ring.advance }.loop len (buf ++ [c]) (.popHead len (buf ++ [c])))
  | .pollStatus len buf =>
    if s.fifo = [] then some (s.finish buf) else some { s with reader := .pollData len buf }
  | .pollData len buf =>
    match s.fifo with
    | [] => some (s.loop len (buf ++ [stale]) (.pollStatus len (buf ++ [stale])))
    | c :: rest =>
      some ({ s with fifo := rest }.loop len (buf ++ [c]) (.pollStatus len (buf ++ [c])))

/-- One step. The handler runs to its end before `failsafe_read` goes on; bytes arrive at any
time. -/
def step (s : State) : Action → Option State
  | .arrive c => some { s with fifo := s.fifo ++ [c], arrived := s.arrived ++ [c] }
  | .interrupt => if s.inHandler then none else some { s with inHandler := true }
  | .drain => if s.inHandler then some s.drain else none
  | .call bufIsNull len =>
    match s.inHandler, s.reader with
    | false, .idle =>
      if len ≤ 0 ∨ bufIsNull then some s else some { s with reader := .popHead len.toNat [] }
    | _, _ => none
  | .read stale => if s.inHandler then none else s.read stale

def run (s : State) : List Action → Option State
  | [] => some s
  | a :: l => (s.step a).bind fun s => s.run l

end State

/-- The bytes of `l` without those at the positions `dropped`. -/
def keep (l : List UInt8) (dropped : List Nat) : List UInt8 :=
  (l.zipIdx.filter fun p => p.2 ∉ dropped).map Prod.fst

theorem mem_zipIdx_pos {l : List UInt8} (hp : p ∈ l.zipIdx k) : k ≤ p.2 ∧ p.2 < k + l.length := by
  obtain ⟨hlo, hhi, -⟩ := List.mem_zipIdx (x := p.1) (i := p.2) hp
  exact ⟨hlo, hhi⟩

theorem keep_append {l l' : List UInt8} (h : ∀ i ∈ dropped, i < l.length) :
    keep (l ++ l') dropped = keep l dropped ++ l' := by
  have hrest : (l'.zipIdx l.length).filter (fun p => p.2 ∉ dropped) = l'.zipIdx l.length := by
    refine List.filter_eq_self.2 fun p hp => ?_
    have hpos := (mem_zipIdx_pos hp).1
    exact decide_eq_true fun hin => by
      have hlt := h p.2 hin
      omega
  rw [keep, List.zipIdx_append, List.filter_append, List.map_append, Nat.zero_add, hrest,
    List.zipIdx_map_fst, keep]

theorem keep_dropped (l : List UInt8) (dropped : List Nat) (c : UInt8) :
    keep (l ++ [c]) (dropped ++ [l.length]) = keep l dropped := by
  have hold : l.zipIdx.filter (fun p => p.2 ∉ dropped ++ [l.length]) =
      l.zipIdx.filter (fun p => p.2 ∉ dropped) := by
    refine List.filter_congr fun p hp => ?_
    have hpos := (mem_zipIdx_pos hp).2
    have hne : p.2 ≠ l.length := by omega
    simp [hne]
  rw [keep, List.zipIdx_append, List.filter_append, List.map_append, hold, keep]
  simp

namespace State

/-- What `failsafe_read` has handed out, the call in progress included. -/
def delivered (s : State) : List UInt8 := s.returned ++ s.reader.buf

/-- The bytes handed out, in the ring and in the UART are the arrived ones without those that
the handler dropped, in their order. -/
def InOrder (s : State) : Prop :=
  s.delivered ++ s.ring.contents ++ s.fifo = keep s.arrived s.dropped

instance (s : State) : Decidable s.InOrder := inferInstanceAs (Decidable (_ = _))

/-- What `failsafe_read` knows about the ring in the middle of a pop. -/
def ReaderOk (s : State) : Prop :=
  match s.reader with
  | .popTail _ _ head => head = s.ring.tail ∨ s.ring.head ≠ s.ring.tail
  | .popByte _ _ => s.ring.head ≠ s.ring.tail
  | .popAdvance _ _ c => s.ring.head ≠ s.ring.tail ∧ c = s.ring.front
  | _ => True

/-- `done` are the bytes that have left the UART. -/
structure Inv (done : List UInt8) (s : State) : Prop where
  arrived_eq : s.arrived = done ++ s.fifo
  dropped_lt : ∀ i ∈ s.dropped, i < done.length
  order : s.delivered ++ s.ring.contents = keep done s.dropped
  reader : s.ReaderOk

theorem Inv.inOrder (h : Inv done s) : s.InOrder := by
  rw [InOrder, h.order, h.arrived_eq, keep_append h.dropped_lt]

theorem Inv.position_eq (h : Inv done s) : s.position = done.length := by
  rw [position, h.arrived_eq, List.length_append]
  omega

theorem Inv.init : Inv [] init where
  arrived_eq := rfl
  dropped_lt := fun _ hi => absurd hi List.not_mem_nil
  order := by decide
  reader := trivial

theorem put_head_ne (r : Ring UInt8 n) (c : UInt8) (h : r.next ≠ r.tail) :
    (r.put c).head ≠ (r.put c).tail := h

theorem put_front (r : Ring UInt8 n) (c : UInt8) (h : r.head ≠ r.tail) :
    (r.put c).front = r.front := Function.update_of_ne (Ne.symm h) _ _

theorem ReaderOk.put {s : State} (h : s.ReaderOk) (hnext : s.ring.next ≠ s.ring.tail) (c : UInt8)
    (fifo : List UInt8) : ReaderOk { s with ring := s.ring.put c, fifo := fifo } := by
  have hne := put_head_ne s.ring c hnext
  cases s with
  | mk ring fifo' inHandler reader arrived dropped returned =>
    cases reader with
    | popTail len buf head => exact .inr hne
    | popByte len buf => exact hne
    | popAdvance len buf c' =>
      obtain ⟨hring, hc⟩ := h
      exact ⟨hne, hc.trans (put_front ring c hring).symm⟩
    | _ => trivial

theorem Inv.drain (h : Inv done s) : ∃ done', Inv done' s.drain := by
  rw [State.drain]
  split
  next hfifo => exact ⟨done, h.arrived_eq, h.dropped_lt, h.order, h.reader⟩
  next c rest hfifo =>
    have harr : s.arrived = done ++ [c] ++ rest := by
      rw [h.arrived_eq, hfifo, List.append_assoc, List.singleton_append]
    refine ⟨done ++ [c], ?_⟩
    by_cases hfull : s.ring.next ≠ s.ring.tail
    · simp only [if_pos hfull]
      refine ⟨harr, fun i hi => ?_, ?_, h.reader.put hfull c rest⟩
      · have hlt := h.dropped_lt i hi
        rw [List.length_append]
        omega
      · show s.delivered ++ (s.ring.put c).contents = keep (done ++ [c]) s.dropped
        rw [Ring.contents_put _ _ hfull, ← List.append_assoc, h.order, keep_append h.dropped_lt]
    · simp only [if_neg hfull]
      refine ⟨harr, fun i hi => ?_, ?_, h.reader⟩
      · rw [List.length_append, List.length_singleton]
        obtain hi | hi := List.mem_append.1 hi
        · have hlt := h.dropped_lt i hi
          omega
        · rw [List.mem_singleton.1 hi, h.position_eq]
          omega
      · show s.delivered ++ s.ring.contents = keep (done ++ [c]) (s.dropped ++ [s.position])
        rw [h.order, h.position_eq, keep_dropped]

theorem Inv.loop {s : State} (more : Reader) (harr : s.arrived = done ++ s.fifo)
    (hdrop : ∀ i ∈ s.dropped, i < done.length)
    (horder : s.returned ++ buf ++ s.ring.contents = keep done s.dropped)
    (hbuf : more.buf = buf) (hok : ReaderOk { s with reader := more }) (len : Nat) :
    Inv done (s.loop len buf more) := by
  rw [State.loop]
  split
  · refine ⟨harr, hdrop, ?_, hok⟩
    rw [delivered, hbuf]
    exact horder
  · refine ⟨harr, hdrop, ?_, trivial⟩
    rw [delivered, finish]
    simp only [Reader.buf, List.append_nil]
    exact horder

/-- A direct poll takes its byte from a UART that has one, while the ring is empty. -/
def safe (s : State) : Action → Bool
  | .read _ =>
    match s.reader with
    | .pollData _ _ => s.ring.head == s.ring.tail && s.fifo != []
    | _ => true
  | _ => true

theorem Inv.read (h : Inv done s) (hsafe : s.safe (.read stale)) (hstep : s.read stale = some s') :
    ∃ done', Inv done' s' := by
  obtain ⟨harr, hdrop, horder, hok⟩ := h
  rw [delivered] at horder
  rw [State.read] at hstep
  rw [ReaderOk] at hok
  rw [safe] at hsafe
  split at hstep
  next => exact absurd hstep (Option.some_ne_none s').symm
  next len buf hreader =>
    obtain rfl := Option.some.inj hstep
    rw [hreader] at horder
    exact ⟨done, harr, hdrop, horder, (eq_or_ne _ _)⟩
  next len buf head hreader =>
    rw [hreader] at horder hok
    split at hstep
    next heq =>
      obtain rfl := Option.some.inj hstep
      exact ⟨done, harr, hdrop, horder, trivial⟩
    next hne =>
      obtain rfl := Option.some.inj hstep
      exact ⟨done, harr, hdrop, horder, hok.resolve_left hne⟩
  next len buf hreader =>
    rw [hreader] at horder hok
    obtain rfl := Option.some.inj hstep
    exact ⟨done, harr, hdrop, horder, hok, rfl⟩
  next len buf c hreader =>
    rw [hreader] at horder hok
    obtain rfl := Option.some.inj hstep
    obtain ⟨hne, rfl⟩ := hok
    refine ⟨done, Inv.loop (s := { s with ring := s.ring.advance })
      (.popHead len (buf ++ [s.ring.front])) harr hdrop ?_ rfl trivial len⟩
    rw [Ring.contents_eq_cons _ hne] at horder
    show s.returned ++ (buf ++ [s.ring.front]) ++ s.ring.advance.contents = keep done s.dropped
    rw [← horder, ← List.append_assoc, List.append_assoc _ [_], List.singleton_append]
    rfl
  next len buf hreader =>
    rw [hreader] at horder
    split at hstep
    next =>
      obtain rfl := Option.some.inj hstep
      have hdelivered : (s.finish buf).delivered = s.returned ++ buf := List.append_nil _
      exact ⟨done, harr, hdrop, by rw [hdelivered]; exact horder, trivial⟩
    next =>
      obtain rfl := Option.some.inj hstep
      exact ⟨done, harr, hdrop, horder, trivial⟩
  next len buf hreader =>
    simp only [hreader, Bool.and_eq_true, beq_iff_eq, bne_iff_ne] at hsafe
    obtain ⟨hempty, hfifo⟩ := hsafe
    rw [hreader, (Ring.contents_eq_nil_iff _).2 hempty, List.append_nil] at horder
    split at hstep
    next hnil => exact absurd hnil hfifo
    next c rest hcons =>
      obtain rfl := Option.some.inj hstep
      refine ⟨done ++ [c], Inv.loop (s := { s with fifo := rest })
        (.pollStatus len (buf ++ [c])) ?_ (fun i hi => ?_) ?_ rfl trivial len⟩
      · simp only
        rw [harr, hcons, List.append_assoc, List.singleton_append]
      · have hlt := hdrop i hi
        rw [List.length_append]
        omega
      · show s.returned ++ (buf ++ [c]) ++ s.ring.contents = keep (done ++ [c]) s.dropped
        rw [keep_append hdrop, ← horder, (Ring.contents_eq_nil_iff _).2 hempty, List.append_nil,
          Reader.buf, List.append_assoc]

theorem Inv.step (h : Inv done s) (hsafe : s.safe a) (hstep : s.step a = some s') :
    ∃ done', Inv done' s' := by
  cases a with
  | arrive c =>
    obtain rfl := Option.some.inj hstep
    refine ⟨done, ?_, h.dropped_lt, h.order, h.reader⟩
    simp only [h.arrived_eq, List.append_assoc]
  | interrupt =>
    rw [State.step] at hstep
    split at hstep
    · exact absurd hstep (Option.some_ne_none s').symm
    · obtain rfl := Option.some.inj hstep
      exact ⟨done, h.arrived_eq, h.dropped_lt, h.order, h.reader⟩
  | drain =>
    rw [State.step] at hstep
    split at hstep
    · obtain rfl := Option.some.inj hstep
      exact h.drain
    · exact absurd hstep (Option.some_ne_none s').symm
  | call bufIsNull len =>
    rw [State.step] at hstep
    split at hstep
    next hidle =>
      split at hstep
      · obtain rfl := Option.some.inj hstep
        exact ⟨done, h⟩
      · obtain rfl := Option.some.inj hstep
        have horder := h.order
        rw [delivered, hidle] at horder
        exact ⟨done, h.arrived_eq, h.dropped_lt, horder, trivial⟩
    next => exact absurd hstep (Option.some_ne_none s').symm
  | read stale =>
    rw [State.step] at hstep
    split at hstep
    · exact absurd hstep (Option.some_ne_none s').symm
    · exact h.read hsafe hstep

/-- All steps of a run are safe. -/
def safeRun (s : State) : List Action → Bool
  | [] => true
  | a :: l =>
    s.safe a &&
      match s.step a with
      | none => true
      | some s' => s'.safeRun l

theorem Inv.run (h : Inv done s) (hsafe : s.safeRun l) (hrun : s.run l = some s') :
    ∃ done', Inv done' s' := by
  induction l generalizing s done with
  | nil =>
    obtain rfl := Option.some.inj hrun
    exact ⟨done, h⟩
  | cons a l ih =>
    obtain ⟨s₁, hstep, hrest⟩ := Option.bind_eq_some_iff.1 hrun
    rw [safeRun, hstep, Bool.and_eq_true] at hsafe
    obtain ⟨done₁, h₁⟩ := h.step hsafe.1 hstep
    exact ih h₁ hsafe.2 hrest

theorem loop_dropped (s : State) : (s.loop len buf more).dropped = s.dropped := by
  rw [loop]
  split <;> rfl

theorem read_dropped {s : State} (hstep : s.read stale = some s') : s'.dropped = s.dropped := by
  rw [State.read] at hstep
  split at hstep
  next => exact absurd hstep (Option.some_ne_none s').symm
  next => obtain rfl := Option.some.inj hstep; rfl
  next => split at hstep <;> (obtain rfl := Option.some.inj hstep; rfl)
  next => obtain rfl := Option.some.inj hstep; rfl
  next => obtain rfl := Option.some.inj hstep; exact loop_dropped _
  next => split at hstep <;> (obtain rfl := Option.some.inj hstep; rfl)
  next => split at hstep <;> (obtain rfl := Option.some.inj hstep; exact loop_dropped _)

theorem step_dropped {s : State} (hstep : s.step a = some s') : s'.dropped = s.dropped ∨
    s.ring.contents.length = 127 ∧ s'.dropped = s.dropped ++ [s.position] := by
  cases a with
  | drain =>
    rw [step] at hstep
    split at hstep
    · obtain rfl := Option.some.inj hstep
      rw [drain]
      split
      · exact .inl rfl
      · split
        next => exact .inl rfl
        next hfull => exact .inr ⟨s.ring.next_eq_tail_iff.1 (not_not.1 hfull), rfl⟩
    · exact absurd hstep (Option.some_ne_none s').symm
  | arrive c =>
    obtain rfl := Option.some.inj hstep
    exact .inl rfl
  | interrupt =>
    rw [step] at hstep
    split at hstep
    · exact absurd hstep (Option.some_ne_none s').symm
    · obtain rfl := Option.some.inj hstep
      exact .inl rfl
  | call bufIsNull len =>
    rw [step] at hstep
    split at hstep
    · split at hstep <;> (obtain rfl := Option.some.inj hstep; exact .inl rfl)
    · exact absurd hstep (Option.some_ne_none s').symm
  | read stale =>
    rw [step] at hstep
    split at hstep
    · exact absurd hstep (Option.some_ne_none s').symm
    · exact .inl (read_dropped hstep)

/-- In a run in which each direct poll of `failsafe_read` finds the ring empty and a byte in the
UART, the bytes stay in order and none is lost but those that a full ring dropped. -/
theorem failsafeRead_inOrder (l : List Action) (hsafe : init.safeRun l)
    (hrun : init.run l = some s) :
    s.InOrder ∧ ∀ a s', s.step a = some s' → s'.dropped = s.dropped ∨
      s.ring.contents.length = 127 ∧ s'.dropped = s.dropped ++ [s.position] := by
  obtain ⟨done, h⟩ := Inv.init.run hsafe hrun
  exact ⟨h.inOrder, fun a s' hstep => step_dropped hstep⟩

/-- Two bytes through the interrupt, one of them read while the other is still in the UART. -/
def typing : List Action :=
  [.arrive 0x61, .interrupt, .drain, .arrive 0x62, .drain, .drain, .call false 3, .read 0,
    .read 0, .read 0, .read 0, .read 0, .read 0, .arrive 0x63, .read 0, .read 0]

theorem failsafeRead_inOrder_typing :
    ∃ s, init.run typing = some s ∧ s.fifo = [0x63] ∧ s.InOrder :=
  ⟨_, rfl, rfl, (failsafeRead_inOrder typing (by decide) rfl).1⟩

/-- The handler fetches a byte behind the ring test of `failsafe_read`, which then polls the
next one. -/
def overtaking : List Action :=
  [.call false 1, .read 0, .read 0, .arrive 0x61, .interrupt, .drain, .drain, .arrive 0x62,
    .read 0, .read 0]

theorem overtaking_not_inOrder :
    ∃ s, init.run overtaking = some s ∧ s.returned = [0x62] ∧ s.ring.contents = [0x61] ∧
      s.fifo = [] ∧ keep s.arrived s.dropped = [0x61, 0x62] ∧ ¬ s.InOrder :=
  ⟨_, rfl, rfl, by decide, rfl, by decide, by decide⟩

end State

end Pegasos2.Console
