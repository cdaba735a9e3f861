import Pegasos2.Bytes
import Mathlib.Tactic.SplitIfs

namespace Pegasos2
set_option autoImplicit true

/-- An unsigned number of `width` bytes at the offset `off` of a block. -/
structure Field where
  off : Nat
  width : Nat
  value : Nat
  little : Bool

/-- A big-endian field. -/
abbrev be (off width value : Nat) : Field := ⟨off, width, value, false⟩

/-- A little-endian field. -/
abbrev le (off width value : Nat) : Field := ⟨off, width, value, true⟩

/-- The number whose big-endian bytes are `l`. -/
def ofBytes (l : List UInt8) : Nat := l.foldl (fun n c => n * 256 + c.toNat) 0

/-- A slice of a block that is set to the bytes `l`. -/
abbrev slice (off : Nat) (l : List UInt8) : Field := be off l.length (ofBytes l)

namespace Field

def Fits (f : Field) : Prop := f.value < 256 ^ f.width

instance (f : Field) : Decidable f.Fits := inferInstanceAs (Decidable (_ < _))

/-- Byte `j` of the field. -/
def byte (f : Field) (j : Nat) : UInt8 :=
  .ofNat (f.value / 256 ^ (if f.little then j else f.width - 1 - j))

def put (f : Field) (b : Buf) : Buf := fun i =>
  if f.off ≤ i ∧ i < f.off + f.width then f.byte (i - f.off) else b i

theorem put_inside (f : Field) (b : Buf) (h : j < f.width) : f.put b (f.off + j) = f.byte j := by
  rw [put, if_pos ⟨Nat.le_add_right _ _, by omega⟩, Nat.add_sub_cancel_left]

theorem put_outside (f : Field) (b : Buf) (h : i < f.off ∨ f.off + f.width ≤ i) :
    f.put b i = b i := by
  rw [put, if_neg (by omega)]

end Field

/-- The block that the fields of a list make of zeros, the first of the list being written last. -/
def written : List Field → Buf
  | [] => fun _ => 0
  | f :: fs => f.put (written fs)

/-- The field that `width` bytes at `off` are, if no field overlaps them. Bytes that no field
covers are zero. -/
def lookup (off width : Nat) (little : Bool) : List Field → Option Nat
  | [] => some 0
  | f :: fs =>
    if f.off = off ∧ f.width = width ∧ f.little = little then some f.value
    else if f.off + f.width ≤ off ∨ off + width ≤ f.off then lookup off width little fs
    else none

theorem lookup_append (h : lookup off width little fs = lookup off width little gs)
    (front : List Field) :
    lookup off width little (front ++ fs) = lookup off width little (front ++ gs) := by
  induction front with
  | nil => exact h
  | cons f front ih => rw [List.cons_append, List.cons_append, lookup, lookup, ih]

theorem lookup_outside (hw : 0 < width)
    (h : ∀ f ∈ fs, f.off + f.width ≤ off ∨ off + width ≤ f.off) (rest : List Field) :
    lookup off width little (fs ++ rest) = lookup off width little rest := by
  induction fs with
  | nil => rfl
  | cons f fs ih =>
    obtain ⟨hf, hfs⟩ := List.forall_mem_cons.1 h
    rw [List.cons_append, lookup, if_neg (by omega), if_pos hf, ih hfs]

/-- Fields that do not overlap the one that is looked up can be left out. -/
theorem lookup_middle (hw : 0 < width)
    (h : ∀ f ∈ fs, f.off + f.width ≤ off ∨ off + width ≤ f.off) (front back : List Field) :
    lookup off width little (front ++ fs ++ back).reverse =
      lookup off width little (front ++ back).reverse := by
  rw [List.reverse_append, List.reverse_append, List.reverse_append]
  apply lookup_append
  exact lookup_outside hw (fun f hf => h f (List.mem_reverse.1 hf)) _

/-- The first `n` bytes of a buffer are those of a block with the fields `fs`. -/
structure Holds (n : Nat) (fs : List Field) (b : Buf) : Prop where
  fits : ∀ f ∈ fs, f.Fits
  byte : ∀ i < n, b i = written fs.reverse i

theorem byte_written (h : ∀ f ∈ fs, f.Fits) (hl : lookup off width little fs = some v) :
    v < 256 ^ width ∧ ∀ j < width, written fs (off + j) = (Field.mk off width v little).byte j := by
  induction fs with
  | nil =>
    obtain rfl := Option.some.inj hl
    refine ⟨Nat.pow_pos (by decide), fun j _ => ?_⟩
    rw [Field.byte, Nat.zero_div]
    rfl
  | cons f fs ih =>
    rw [lookup] at hl
    split_ifs at hl with heq hout
    · obtain rfl := Option.some.inj hl
      obtain ⟨rfl, rfl, rfl⟩ := heq
      exact ⟨h f List.mem_cons_self, fun j hj => f.put_inside _ hj⟩
    · obtain ⟨hv, hbytes⟩ := ih (fun g hg => h g (List.mem_cons_of_mem _ hg)) hl
      refine ⟨hv, fun j hj => ?_⟩
      rw [written, f.put_outside _ (by omega)]
      exact hbytes j hj

theorem le32_of_bytes {b : Buf} (hv : v < 2 ^ 32)
    (h : ∀ j < 4, b (off + j) = .ofNat (v / 256 ^ j)) : le32 b off = v := by
  have hnat (j : Nat) (hj : j < 4) : b.nat (off + j) = v / 256 ^ j % 256 := by
    rw [Buf.nat, h j hj, UInt8.toNat_ofNat']
  have h0 : b.nat off = v / 1 % 256 := hnat 0 (by decide)
  have h1 : b.nat (off + 1) = v / 256 % 256 := hnat 1 (by decide)
  have h2 : b.nat (off + 2) = v / 65536 % 256 := hnat 2 (by decide)
  have h3 : b.nat (off + 3) = v / 16777216 % 256 := hnat 3 (by decide)
  rw [le32, h0, h1, h2, h3]
  omega

namespace Holds

variable {n : Nat} {fs : List Field} {b : Buf}

theorem of_agree (h : Holds n fs b) {c : Buf} (hc : ∀ i < n, c i = b i) : Holds n fs c :=
  ⟨h.fits, fun i hi => (hc i hi).trans (h.byte i hi)⟩

theorem bytes_eq (h : Holds n fs b) (hl : lookup off width little fs.reverse = some v)
    (hn : off + width ≤ n) :
    v < 256 ^ width ∧ ∀ j < width, b (off + j) = (Field.mk off width v little).byte j := by
  obtain ⟨hv, hbytes⟩ := byte_written (fun f hf => h.fits f (List.mem_reverse.1 hf)) hl
  refine ⟨hv, fun j hj => ?_⟩
  rw [h.byte _ (by omega)]
  exact hbytes j hj

theorem nat_eq (h : Holds n fs b) (hl : lookup off width little fs.reverse = some v)
    (hn : off + width ≤ n) (hj : j < width) :
    b.nat (off + j) = v / 256 ^ (if little then j else width - 1 - j) % 256 := by
  rw [Buf.nat, (h.bytes_eq hl hn).2 j hj, Field.byte, UInt8.toNat_ofNat']

theorem nat (h : Holds n fs b) (hl : lookup off 1 false fs.reverse = some v) (hn : off + 1 ≤ n) :
    b.nat off = v := by
  have hv : v < 256 := (h.bytes_eq hl hn).1
  have h0 : b.nat off = v / 1 % 256 := h.nat_eq hl hn (j := 0) Nat.one_pos
  rw [h0]
  omega

theorem be16 (h : Holds n fs b) (hl : lookup off 2 false fs.reverse = some v)
    (hn : off + 2 ≤ n) : be16 b off = v := by
  have hv : v < 65536 := (h.bytes_eq hl hn).1
  have h0 : b.nat off = v / 256 % 256 := h.nat_eq hl hn (j := 0) (by decide)
  have h1 : b.nat (off + 1) = v / 1 % 256 := h.nat_eq hl hn (by decide)
  rw [Pegasos2.be16, h0, h1]
  omega

theorem be32 (h : Holds n fs b) (hl : lookup off 4 false fs.reverse = some v)
    (hn : off + 4 ≤ n) : be32 b off = v := by
  have hv : v < 4294967296 := (h.bytes_eq hl hn).1
  have h0 : b.nat off = v / 16777216 % 256 := h.nat_eq hl hn (j := 0) (by decide)
  have h1 : b.nat (off + 1) = v / 65536 % 256 := h.nat_eq hl hn (by decide)
  have h2 : b.nat (off + 2) = v / 256 % 256 := h.nat_eq hl hn (by decide)
  have h3 : b.nat (off + 3) = v / 1 % 256 := h.nat_eq hl hn (by decide)
  rw [Pegasos2.be32, h0, h1, h2, h3]
  omega

theorem le16 (h : Holds n fs b) (hl : lookup off 2 true fs.reverse = some v)
    (hn : off + 2 ≤ n) : le16 b off = v := by
  have hv : v < 65536 := (h.bytes_eq hl hn).1
  have h0 : b.nat off = v / 1 % 256 := h.nat_eq hl hn (j := 0) (by decide)
  have h1 : b.nat (off + 1) = v / 256 % 256 := h.nat_eq hl hn (by decide)
  rw [Pegasos2.le16, h0, h1]
  omega

theorem le32 (h : Holds n fs b) (hl : lookup off 4 true fs.reverse = some v)
    (hn : off + 4 ≤ n) : le32 b off = v := by
  obtain ⟨hv, hbytes⟩ := h.bytes_eq hl hn
  exact le32_of_bytes hv hbytes

theorem byte_of_slice (h : Holds n fs b) (hl : lookup off width false fs.reverse = some v)
    (hn : off + width ≤ n) (hj : j < width) : b (off + j) = .ofNat (v / 256 ^ (width - 1 - j)) :=
  (h.bytes_eq hl hn).2 j hj

end Holds

end Pegasos2
