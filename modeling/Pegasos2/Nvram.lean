import Pegasos2.Bytes

namespace Pegasos2.Nvram
set_option autoImplicit true

/-- The battery-backed cells of the VT8231 clock, by CMOS index. -/
abbrev Cmos := Nat → UInt8

def cmosRamBase : Nat := 0x0E
def cmosRamSize : Nat := 0x80 - cmosRamBase
def nvramHeader : Nat := 6
def nvramMagic1 : UInt8 := 0xBE
def nvramMagic2 : UInt8 := 0xEF

def rtcReadByte (c : Cmos) (index : Nat) : UInt8 := c (index &&& 0x7F)

def rtcWriteByte (c : Cmos) (index : Nat) (v : UInt8) : Cmos :=
  Function.update c (index &&& 0x7F) v

/-- The loop `for (i = 0; i < n; i++) sum += b[i]` on a 32-bit `sum`. -/
def byteSum (b : Buf) : Nat → Nat
  | 0 => 0
  | n + 1 => (byteSum b n + b.nat n) % 2 ^ 32

/-- What `machine_nvram_read` leaves behind: its code and the two objects it is given
pointers to. A null pointer has no object behind it. -/
structure ReadResult where
  ret : Retcode
  buf : Option Buf
  len : Option Nat

def machineNvramRead (c : Cmos) : Option Buf → Option Nat → ReadResult
  | some b, some _ =>
    let hdr (i : Nat) := rtcReadByte c (cmosRamBase + i)
    if hdr 0 ≠ 0xBE ∨ hdr 1 ≠ 0xEF then ⟨.eNoDevice, some b, some 0⟩
    else
      let payloadLen := (hdr 2).toNat * 2 ^ 8 + (hdr 3).toNat
      let total := 6 + payloadLen + 1
      if total > cmosRamSize then ⟨.eNoDevice, some b, some 0⟩
      else
        let b' := b.fill (fun i => rtcReadByte c (cmosRamBase + i)) total
        if byteSum b' (6 + payloadLen) % 2 ^ 16 ≠ 0 then ⟨.eNoDevice, some b', some 0⟩
        else ⟨.noError, some b', some total⟩
  | b, l => ⟨.eNoDevice, b, l⟩

/-- The loop of `machine_nvram_write` over the first `n` bytes. -/
def writeBytes (b : Buf) : Nat → Cmos → Cmos
  | 0, c => c
  | n + 1, c => rtcWriteByte (writeBytes b n c) (cmosRamBase + n) (b n)

def machineNvramWrite (c : Cmos) (buf : Option Buf) (len : Nat) : Retcode × Cmos :=
  match buf with
  | none => (.eNoDevice, c)
  | some b =>
    if len = 0 then (.eNoDevice, c)
    else if len > cmosRamSize then (.eOutOfProm, c)
    else (.noError, writeBytes b len c)

/-- The buffer that `store_nvram` hands to `machine_nvram_write`, from the buffer `base` that
holds `len` payload bytes behind the header. -/
def storeNvramImage (base : Buf) (len : Nat) : Buf :=
  let b := ((((((base.store 0 nvramMagic1).store 1 nvramMagic2).store 2
    (UInt8.ofNat (len / 2 ^ 8))).store 3 (UInt8.ofNat (len % 2 ^ 8))).store 4 0).store 5 0)
  let checksum := byteSum b (len + nvramHeader)
  let neg := (2 ^ 32 - checksum) % 2 ^ 32
  ((b.store 4 (UInt8.ofNat (neg / 2 ^ 8))).store 5 (UInt8.ofNat (neg % 2 ^ 8))).store
    (nvramHeader + len) 0

def storeNvram (c : Cmos) (base : Buf) (len : Nat) : Cmos :=
  (machineNvramWrite c (some (storeNvramImage base len)) (len + nvramHeader + 1)).2

/-- `load_nvram` on an allocated image: the payload length and the image it leaves. -/
def loadNvram (c : Cmos) (base : Buf) (len : Nat) : Nat × Buf :=
  let r := machineNvramRead c (some base) (some len)
  if r.ret ≠ .noError then (0, (r.buf.getD base).store nvramHeader 0)
  else (r.len.getD 0 - (nvramHeader + 1), r.buf.getD base)

/-- An environment payload that fits the CMOS window with its header and trailing NUL. -/
structure Payload where
  bytes : List UInt8
  fits : bytes.length + 7 ≤ cmosRamSize

namespace Payload

def size (p : Payload) : Nat := p.bytes.length

/-- `g_nvram_base` holding the payload; the other bytes are whatever the buffer held. -/
def base (p : Payload) (old : Buf) : Buf := old.copy 6 (fun i => p.bytes.getD i 0) 0 p.size

def image (p : Payload) (old : Buf) : Buf := storeNvramImage (p.base old) p.size

end Payload

/-- Storing a payload and reading it back gives its image and the payload. -/
def RoundTrips (p : Payload) (old buf : Buf) (c : Cmos) (len : Nat) : Prop :=
  let img := p.image old
  let c' := storeNvram c (p.base old) p.size
  let r := machineNvramRead c' (some buf) (some len)
  let l := loadNvram c' buf len
  r.ret = .noError ∧ r.len = some (p.size + 7) ∧
    (∃ b, r.buf = some b ∧ ∀ i, i < p.size + 7 → b i = img i) ∧
    l.1 = p.size ∧ ∀ i, i < p.size → l.2 (6 + i) = p.bytes.getD i 0

/-- The magic, length, check and payload bytes in the CMOS are those of some stored payload. -/
def Stored (c : Cmos) : Prop :=
  ∃ (p : Payload) (old : Buf), ∀ i, i < 6 + p.size →
    rtcReadByte c (cmosRamBase + i) = p.image old i

theorem byteSum_le (b : Buf) (n : Nat) : byteSum b n ≤ 255 * n := by
  induction n with
  | zero => exact Nat.le_refl 0
  | succ n ih =>
    have hb := b.nat_lt n
    have hm := Nat.mod_le (byteSum b n + b.nat n) (2 ^ 32)
    rw [byteSum]
    omega

/-- On a window as small as the CMOS the 32-bit sum does not wrap, so it only grows. -/
theorem byteSum_succ (b : Buf) (h : n < 2 ^ 16) :
    byteSum b (n + 1) = byteSum b n + b.nat n := by
  have hs := byteSum_le b n
  have hb := b.nat_lt n
  rw [byteSum]
  exact Nat.mod_eq_of_lt (by omega)

theorem byteSum_mono (b : Buf) (hmn : m ≤ n) (hn : n < 2 ^ 16) :
    byteSum b m ≤ byteSum b n := by
  induction hmn with
  | refl => exact Nat.le_refl _
  | @step k _ ih =>
    rw [byteSum_succ b (by omega)]
    exact Nat.le_trans (ih (by omega)) (Nat.le_add_right _ _)

/-- The magic alone keeps the byte sum of a stored window away from zero, and the window is
too short for it to come round to `0x10000`. -/
theorem byteSum_magic (b : Buf) (h0 : b 0 = 0xBE) (h1 : b 1 = 0xEF) (h2 : 2 ≤ n)
    (hn : n ≤ 114) : byteSum b n % 2 ^ 16 ≠ 0 := by
  have hlo : 429 ≤ byteSum b n := by
    have hm := byteSum_mono b h2 (by omega : n < 2 ^ 16)
    have h429 : byteSum b 2 = 429 := by
      simp only [byteSum, Buf.nat, h0, h1]
      rfl
    omega
  have hhi := byteSum_le b n
  rw [Nat.mod_eq_of_lt (by omega)]
  omega

/-- The checksum test of the reader adds the two check bytes as single bytes, so it rejects
every CMOS content. -/
theorem machineNvramRead_ret (c : Cmos) (b : Option Buf) (l : Option Nat) :
    (machineNvramRead c b l).ret = .eNoDevice := by
  cases b with
  | none => rfl
  | some b =>
    cases l with
    | none => rfl
    | some l =>
      simp only [machineNvramRead]
      split
      · rfl
      · rename_i hmagic
        split
        · rfl
        · rename_i htotal
          split
          · rfl
          · rename_i hsum
            exfalso
            push Not at hmagic hsum
            have hlen : ∀ n, 7 ≤ n → ∀ i, i < 2 →
                b.fill (fun i => rtcReadByte c (cmosRamBase + i)) n i =
                  rtcReadByte c (cmosRamBase + i) := by
              intro n hn i hi
              rw [Buf.fill_apply, if_pos (by omega)]
            refine byteSum_magic _ ?_ ?_ (by omega) ?_ hsum
            · rw [hlen _ (by omega) 0 (by decide)]
              exact hmagic.1
            · rw [hlen _ (by omega) 1 (by decide)]
              exact hmagic.2
            · have hsize : cmosRamSize = 114 := rfl
              omega

/-- No payload survives a store and a load, on any previous CMOS content, while every CMOS
content that `store_nvram` did not produce is indeed refused. -/
theorem nvram_never_round_trips (c : Cmos) (buf : Buf) (len : Nat) :
    (∀ (p : Payload) (old : Buf), ¬ RoundTrips p old buf c len) ∧
      (¬ Stored c → (machineNvramRead c (some buf) (some len)).ret ≠ .noError) := by
  constructor
  · intro p old h
    have hret := h.1
    rw [machineNvramRead_ret] at hret
    cases hret
  · intro _ hret
    rw [machineNvramRead_ret] at hret
    cases hret

/-- The empty environment on a blank CMOS already fails to come back. -/
theorem nvram_round_trip_fails_empty :
    ¬ ((∀ (p : Payload) (old buf : Buf) (c : Cmos) (len : Nat), RoundTrips p old buf c len) ∧
      ∀ (c : Cmos) (buf : Buf) (len : Nat), ¬ Stored c →
        (machineNvramRead c (some buf) (some len)).ret ≠ .noError) := by
  intro h
  have hret := (h.1 ⟨[], by decide⟩ (fun _ => 0) (fun _ => 0) (fun _ => 0xFF) 0).1
  revert hret
  decide

end Pegasos2.Nvram
