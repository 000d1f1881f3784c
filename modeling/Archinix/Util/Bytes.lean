import Mathlib.Tactic

/-!
# Byte strings

File names, file contents, symlink targets and archives are all plain byte
strings here, as `std::string` is in the source.  The module fixes the 64-bit
little-endian integer framing of `serialise.hh` and the padding rule of
`serialise.cc`, with the exact inverse facts the archive format relies on.
-/

namespace Archinix
namespace Util

/-- A byte string, the content of a `std::string`. -/
abbrev Bytes := List UInt8

/-- The bytes of an ASCII literal of the source. -/
def str (s : String) : Bytes := s.toList.map fun c => UInt8.ofNat c.toNat

/-- `%d` formatting of a natural number. -/
def natStr (n : Nat) : Bytes := str (toString n)

/-- `operator<<(Sink &, uint64_t)`: eight bytes, least significant first. -/
def littleEndian (n : Nat) : Bytes :=
  (List.range 8).map fun i => UInt8.ofNat (n >>> (8 * i))

/-- `readLittleEndian<uint64_t>`. -/
def readLittleEndian (buf : Bytes) : Nat :=
  buf.foldr (fun byte high => byte.toNat + 256 * high) 0

/-- The zero bytes `writePadding` emits after `len` bytes. -/
def padding (len : Nat) : Bytes :=
  if len % 8 = 0 then [] else List.replicate (8 - len % 8) 0

@[simp] theorem littleEndian_length (n : Nat) : (littleEndian n).length = 8 := by
  simp [littleEndian]

theorem padding_length (len : Nat) : (padding len).length = (8 - len % 8) % 8 := by
  unfold padding
  split <;> simp <;> omega

/-- The number decoded from `k` bytes has no more than `k` base-256 digits. -/
theorem readLittleEndian_lt (buf : Bytes) : readLittleEndian buf < 256 ^ buf.length := by
  induction buf with
  | nil => simp [readLittleEndian]
  | cons byte rest ih =>
      have hbyte := byte.toNat_lt
      simp only [readLittleEndian, List.foldr_cons, List.length_cons, pow_succ] at ih ⊢
      omega

/-- The digits of `n` below position `k`, least significant first. -/
private def digitsBelow (k n : Nat) : Bytes :=
  (List.range k).map fun i => UInt8.ofNat (n >>> (8 * i))

private theorem digitsBelow_succ (k n : Nat) :
    digitsBelow (k + 1) n = UInt8.ofNat n :: digitsBelow k (n / 256) := by
  simp only [digitsBelow, List.range_succ_eq_map, List.map_cons, List.map_map,
    Nat.mul_zero, Nat.shiftRight_zero]
  congr 1
  apply List.map_congr_left
  intro i _
  simp only [Function.comp_apply, Nat.shiftRight_eq_div_pow, Nat.div_div_eq_div_mul]
  congr 2
  rw [Nat.succ_eq_add_one, Nat.mul_add, Nat.mul_one, Nat.pow_add]
  ring

private theorem readLittleEndian_digitsBelow (k n : Nat) (h : n < 256 ^ k) :
    readLittleEndian (digitsBelow k n) = n := by
  induction k generalizing n with
  | zero =>
      simp only [pow_zero, Nat.lt_one_iff] at h
      simp [digitsBelow, readLittleEndian, h]
  | succ k ih =>
      have hquotient : n / 256 < 256 ^ k := by
        rw [pow_succ] at h
        omega
      have hrest := ih (n / 256) hquotient
      rw [digitsBelow_succ]
      simp only [readLittleEndian, List.foldr_cons] at hrest ⊢
      rw [hrest, UInt8.toNat_ofNat']
      omega

private theorem digitsBelow_readLittleEndian (buf : Bytes) :
    digitsBelow buf.length (readLittleEndian buf) = buf := by
  induction buf with
  | nil => simp [digitsBelow]
  | cons byte rest ih =>
      have hbyte := byte.toNat_lt
      rw [List.length_cons, digitsBelow_succ]
      have hquotient : readLittleEndian (byte :: rest) / 256 = readLittleEndian rest := by
        simp only [readLittleEndian, List.foldr_cons]
        omega
      rw [hquotient, ih]
      congr 1
      apply UInt8.toNat_inj.mp
      rw [UInt8.toNat_ofNat']
      simp only [readLittleEndian, List.foldr_cons]
      omega

/-- A 64-bit integer reads back as it was written. -/
theorem readLittleEndian_littleEndian {n : Nat} (h : n < 2 ^ 64) :
    readLittleEndian (littleEndian n) = n :=
  readLittleEndian_digitsBelow 8 n (by simpa using h)

/-- Every eight-byte word is the encoding of the integer it decodes to. -/
theorem littleEndian_readLittleEndian {buf : Bytes} (h : buf.length = 8) :
    littleEndian (readLittleEndian buf) = buf := by
  have hall := digitsBelow_readLittleEndian buf
  rw [h] at hall
  exact hall

theorem readLittleEndian_lt_of_length {buf : Bytes} (h : buf.length = 8) :
    readLittleEndian buf < 2 ^ 64 := by
  have hlt := readLittleEndian_lt buf
  rw [h] at hlt
  simpa using hlt

/-- A run of zero bytes is what a zero-checked read of its length accepts. -/
theorem eq_replicate_zero_of_all {buf : Bytes} (h : buf.all (· == 0) = true) :
    buf = List.replicate buf.length 0 := by
  apply List.eq_replicate_of_mem
  intro byte hbyte
  simpa using List.all_eq_true.mp h byte hbyte

end Util
end Archinix
