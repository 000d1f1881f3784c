import Archinix.Util.Hash
import Archinix.Util.Serialise

/-!
# Hashes read back

`Hash::parseAnyPrefixed` of `hash.cc` with the decoders of `base-n.cc` and
`base-nix-32.cc`.  Which base a hash is in follows from its length.

A SHA-256 hash reads back from its Nix32 and from its base-16 rendering.
-/

namespace Archinix
namespace Util

/-- `throw FormatError(fmt, args)`. -/
def formatError (fmt : String) (args : List Bytes) : Error := ⟨.error, fmt, args⟩

/-- `throw BadHash(fmt, args)`. -/
def badHash (fmt : String) (args : List Bytes) : Error := ⟨.badHash, fmt, args⟩

namespace Base16

def encodedLength (origSize : Nat) : Nat := origSize * 2

def parseHexDigit (c : UInt8) : Except Error UInt8 :=
  if 48 ≤ c ∧ c ≤ 57 then .ok (c - 48)
  else if 65 ≤ c ∧ c ≤ 70 then .ok (c - 65 + 10)
  else if 97 ≤ c ∧ c ≤ 102 then .ok (c - 97 + 10)
  else .error (formatError "invalid character in Base16 string: '%c'" [[c]])

/-- `base16::decode` of a string of even length. -/
def decode : Bytes → Except Error Bytes
  | high :: low :: rest => do
      let high ← parseHexDigit high
      let low ← parseHexDigit low
      let res ← decode rest
      return (high <<< 4 ||| low) :: res
  | _ => .ok []

end Base16

namespace Base64

def characters : Bytes := str "ABCDEFGHIJKLMNOPQRSTUVWXYZabcdefghijklmnopqrstuvwxyz0123456789+/"

def encodedLength (origSize : Nat) : Nat := (4 * origSize / 3 + 3) / 4 * 4

/-- The loop of `base64::decode`, with the bits read so far: `d` is an `unsigned int`. -/
def decodeFrom (d bits : Nat) : Bytes → Except Error Bytes
  | [] => .ok []
  | c :: rest =>
      if c = 61 then .ok []
      else if c = 10 then decodeFrom d bits rest
      else
        match characters.idxOf? c with
        | none => .error (formatError "invalid character in Base64 string: '%c'" [[c]])
        | some digit =>
            let bits := bits + 6
            let d := (d <<< 6 ||| digit) % 2 ^ 32
            if bits ≥ 8 then
              (decodeFrom d (bits - 8) rest).map (UInt8.ofNat (d >>> (bits - 8)) :: ·)
            else decodeFrom d bits rest

def decode (s : Bytes) : Except Error Bytes := decodeFrom 0 0 s

end Base64

namespace BaseNix32

/-- `std::string::resize`. -/
def resize (bs : Bytes) (size : Nat) : Bytes := bs.take size ++ List.replicate (size - bs.length) 0

/-- The loop body of `BaseNix32::decode`: five more bits, from bit `5 * n` on. -/
def place (res : Bytes) (n digit : Nat) : Bytes :=
  let b := n * 5
  let i := b / 8
  let j := b % 8
  let res := (resize res (i + 1)).modify i (· ||| UInt8.ofNat (digit <<< j))
  if digit >>> (8 - j) ≠ 0 then
    (resize res (i + 2)).modify (i + 1) (· ||| UInt8.ofNat (digit >>> (8 - j)))
  else res

/-- `BaseNix32::lookupReverse`. -/
def lookupReverse (c : UInt8) : Option Nat := characters.idxOf? c

def decode (s : Bytes) : Except Error Bytes :=
  s.reverse.zipIdx.foldlM (fun res (c, n) =>
    match lookupReverse c with
    | some digit => .ok (place res n digit)
    | none => .error (formatError
        "invalid character in Nix32 (Nix's Base32 variation) string: '%c'" [[c]])) []

end BaseNix32

/-- `splitPrefixTo`: what stands before the separator, and after it. -/
def splitPrefixTo (string : Bytes) (separator : UInt8) : Option (Bytes × Bytes) :=
  if separator ∈ string then
    some (string.takeWhile (· ≠ separator), (string.dropWhile (· ≠ separator)).tail)
  else none

def hashAlgoName : Bytes := str "sha256"

/-- A decoder and the name of its encoding. -/
structure DecodeNamePair where
  decode : Bytes → Except Error Bytes
  encodingName : Bytes

def baseFromSize (rest : Bytes) : Except Error DecodeNamePair :=
  if rest.length = Base16.encodedLength hashSizeSha256 then .ok ⟨Base16.decode, str "base16"⟩
  else if rest.length = BaseNix32.encodedLength hashSizeSha256 then
    .ok ⟨BaseNix32.decode, str "nix32"⟩
  else if rest.length = Base64.encodedLength hashSizeSha256 then
    .ok ⟨Base64.decode, str "base64"⟩
  else .error (badHash "hash '%s' has wrong length for hash algorithm '%s'" [rest, hashAlgoName])

def parseLowLevel (rest : Bytes) (pair : DecodeNamePair) : Except Error Hash :=
  let d :=
    match pair.decode rest with
    | .ok d => d
    -- the exception only gets a trace: the string stays empty
    | .error _ => []
  if d.length ≠ hashSizeSha256 then
    .error (badHash "invalid %s hash '%s', length %d != expected length %d"
      [pair.encodingName, rest, natStr d.length, natStr hashSizeSha256])
  else .ok d

/-- The algorithm and the rest of a prefixed hash, and whether it is in SRI form. -/
def splitAlgo (original : Bytes) : Except Error (Bytes × Bytes × Bool) :=
  match splitPrefixTo original 58 with
  | some (algo, rest) => .ok (algo, rest, false)
  | none =>
      match splitPrefixTo original 45 with
      | some (algo, rest) => .ok (algo, rest, true)
      | none => .error (badHash "hash '%s' does not include a type" [original])

def Hash.parseAnyPrefixed (original : Bytes) : Except Error Hash := do
  let (algo, rest, isSRI) ← splitAlgo original
  if algo ≠ hashAlgoName then
    .error (badHash "hash '%s' is not %s, which is the only algorithm this store uses"
      [original, hashAlgoName])
  else if isSRI then parseLowLevel rest ⟨Base64.decode, str "SRI"⟩
  else parseLowLevel rest (← baseFromSize rest)

/-! ## Base 16 -/

namespace Base16

theorem parseHexDigit_characters (n : Fin 16) :
    parseHexDigit (characters.getD n.val 0) = .ok (UInt8.ofNat n.val) := by
  revert n
  decide

theorem decode_encode (bs : Bytes) : decode (encode bs) = .ok bs := by
  induction bs with
  | nil => rfl
  | cons byte bs ih =>
      have hlt := byte.toNat_lt
      have hhigh : byte.toNat >>> 4 < 16 := by
        rw [Nat.shiftRight_eq_div_pow]
        omega
      have hlow : byte.toNat &&& 0x0f < 16 := Nat.lt_succ_of_le Nat.and_le_right
      have hjoin : ∀ n : Fin 256, UInt8.ofNat (n.val >>> 4) <<< 4 ||| UInt8.ofNat (n.val &&& 0x0f) =
          UInt8.ofNat n.val := by decide +kernel
      rw [encode, List.flatMap_cons, List.cons_append, List.cons_append, List.nil_append, decode,
        parseHexDigit_characters ⟨_, hhigh⟩, parseHexDigit_characters ⟨_, hlow⟩,
        show decode (bs.flatMap _) = .ok bs from ih]
      have hbyte := hjoin ⟨byte.toNat, hlt⟩
      rw [UInt8.ofNat_toNat] at hbyte
      exact congrArg (fun b : UInt8 => Except.ok (b :: bs)) hbyte

theorem length_encode (bs : Bytes) : (encode bs).length = encodedLength bs.length := by
  simp [encode, encodedLength]

end Base16

/-! ## Nix32 -/

namespace BaseNix32

/-- Bit `k` of a byte string, the least significant bit of the first byte being bit 0. -/
def bitAt (bs : Bytes) (k : Nat) : Bool := (bs.getD (k / 8) 0).toNat.testBit (k % 8)

theorem testBit_byte {byte : UInt8} {k : Nat} (h : 8 ≤ k) : byte.toNat.testBit k = false :=
  Nat.testBit_lt_two_pow (byte.toNat_lt.trans_le (Nat.pow_le_pow_right (by decide) h))

theorem getD_of_le {bs : Bytes} {k : Nat} (h : bs.length ≤ k) : bs.getD k 0 = 0 := by
  rw [List.getD_eq_getElem?_getD, List.getElem?_eq_none h, Option.getD_none]

/-- The bytes of a string are its bits. -/
theorem eq_of_bitAt {bs cs : Bytes} (hlen : bs.length = cs.length)
    (h : ∀ k, bitAt bs k = bitAt cs k) : bs = cs := by
  refine List.ext_getElem hlen fun i hi hi' => ?_
  have hbyte : bs[i].toNat = cs[i].toNat := by
    apply Nat.eq_of_testBit_eq
    intro k
    by_cases hk : k < 8
    · have hbit := h (i * 8 + k)
      rwa [bitAt, bitAt, show (i * 8 + k) / 8 = i by omega, show (i * 8 + k) % 8 = k by omega,
        List.getD_eq_getElem _ _ hi, List.getD_eq_getElem _ _ hi'] at hbit
    · rw [testBit_byte (by omega), testBit_byte (by omega)]
  exact UInt8.toNat_inj.mp hbyte

/-- The digit is five bits of the string. -/
theorem testBit_digit (bs : Bytes) (n : Nat) {m : Nat} (hm : m < 5) :
    (digit bs n).testBit m = bitAt bs (n * 5 + m) := by
  have hhigh : (if n * 5 / 8 + 1 ≥ bs.length then 0
      else (bs.getD (n * 5 / 8 + 1) 0).toNat <<< (8 - n * 5 % 8) % 256) =
      (bs.getD (n * 5 / 8 + 1) 0).toNat <<< (8 - n * 5 % 8) % 2 ^ 8 := by
    split
    · rename_i hlast
      rw [getD_of_le hlast]
      simp
    · rfl
  rw [digit, hhigh, show (32 : Nat) = 2 ^ 5 from rfl]
  simp only [Nat.testBit_mod_two_pow, Nat.testBit_or, Nat.testBit_shiftRight,
    Nat.testBit_shiftLeft, hm, show m < 8 by omega, decide_true, Bool.true_and, bitAt]
  by_cases hcarry : n * 5 % 8 + m < 8
  · rw [show (n * 5 + m) / 8 = n * 5 / 8 by omega, show (n * 5 + m) % 8 = n * 5 % 8 + m by omega]
    simp [show ¬ m ≥ 8 - n * 5 % 8 by omega]
  · rw [show (n * 5 + m) / 8 = n * 5 / 8 + 1 by omega,
      show (n * 5 + m) % 8 = m - (8 - n * 5 % 8) by omega, testBit_byte (by omega)]
    simp [show m ≥ 8 - n * 5 % 8 by omega]

theorem digit_lt (bs : Bytes) (n : Nat) : digit bs n < 32 := Nat.mod_lt _ (by decide)

theorem length_resize (bs : Bytes) (size : Nat) : (resize bs size).length = size := by
  rw [resize, List.length_append, List.length_take, List.length_replicate]
  omega

theorem bitAt_resize (bs : Bytes) (size k : Nat) :
    bitAt (resize bs size) k = (decide (k / 8 < size) && bitAt bs k) := by
  have hbyte : (resize bs size).getD (k / 8) 0 = if k / 8 < size then bs.getD (k / 8) 0 else 0 := by
    split
    · rename_i hlt
      by_cases hlen : k / 8 < bs.length
      · rw [resize, List.getD_append _ _ _ _ (by rw [List.length_take]; omega),
          List.getD_eq_getElem?_getD, List.getElem?_take_of_lt hlt, ← List.getD_eq_getElem?_getD]
      · rw [getD_of_le (Nat.not_lt.mp hlen), resize, List.take_of_length_le (by omega),
          List.getD_append_right _ _ _ _ (by omega), List.getD_eq_getElem?_getD,
          List.getElem?_replicate]
        split <;> rfl
    · rename_i hle
      exact getD_of_le (by rw [length_resize]; omega)
  rw [bitAt, hbyte, bitAt]
  by_cases hlt : k / 8 < size <;> simp [hlt]

theorem bitAt_modify {bs : Bytes} {i : Nat} (hi : i < bs.length) (byte : UInt8) (k : Nat) :
    bitAt (bs.modify i (· ||| byte)) k =
      (bitAt bs k || (decide (k / 8 = i) && byte.toNat.testBit (k % 8))) := by
  rw [bitAt, bitAt, List.getD_eq_getElem?_getD, List.getD_eq_getElem?_getD, List.getElem?_modify]
  by_cases hk : k / 8 = i
  · rw [hk, List.getElem?_eq_getElem hi]
    simp
  · simp [hk, Ne.symm hk]

theorem testBit_of_lt {d m : Nat} (hd : d < 32) (hm : 5 ≤ m) : d.testBit m = false := by
  have hpow : 2 ^ 5 ≤ 2 ^ m := Nat.pow_le_pow_right (by decide) hm
  exact Nat.testBit_lt_two_pow (hd.trans_le hpow)

/-- Five bits more, where there was none. -/
theorem bitAt_place {res : Bytes} {n d : Nat} (hres : ∀ k, n * 5 ≤ k → bitAt res k = false)
    (hd : d < 32) (k : Nat) :
    bitAt (place res n d) k =
      (bitAt res k || (decide (n * 5 ≤ k) && d.testBit (k - n * 5))) := by
  have hlow : ∀ m, (UInt8.ofNat (d <<< (n * 5 % 8))).toNat.testBit m =
      (decide (m < 8) && (decide (n * 5 % 8 ≤ m) && d.testBit (m - n * 5 % 8))) := by
    intro m
    rw [UInt8.toNat_ofNat', Nat.testBit_mod_two_pow, Nat.testBit_shiftLeft]
  have hfirst : ∀ k, bitAt ((resize res (n * 5 / 8 + 1)).modify (n * 5 / 8)
      (· ||| UInt8.ofNat (d <<< (n * 5 % 8)))) k =
      (bitAt res k || (decide (k < (n * 5 / 8 + 1) * 8) &&
        (decide (n * 5 ≤ k) && d.testBit (k - n * 5)))) := by
    intro k
    rw [bitAt_modify (by rw [length_resize]; omega), bitAt_resize, hlow]
    by_cases hk : n * 5 ≤ k
    · rw [hres k hk]
      by_cases hi : k / 8 = n * 5 / 8
      · simp [hi, hk, show k % 8 < 8 by omega, show n * 5 % 8 ≤ k % 8 by omega,
          show k < (n * 5 / 8 + 1) * 8 by omega, show k % 8 - n * 5 % 8 = k - n * 5 by omega]
      · simp [hi, show ¬ k < (n * 5 / 8 + 1) * 8 by omega]
    · have hbyte : k / 8 < n * 5 / 8 + 1 := by omega
      by_cases hi : k / 8 = n * 5 / 8
      · simp [hbyte, hk, show ¬ n * 5 % 8 ≤ k % 8 by omega]
      · simp [hbyte, hk, hi]
  rw [place]
  split
  · -- the digit reaches into the next byte
    rw [bitAt_modify (by rw [length_resize]; omega), bitAt_resize, hfirst, UInt8.toNat_ofNat',
      Nat.testBit_mod_two_pow, Nat.testBit_shiftRight]
    by_cases hk : k < (n * 5 / 8 + 1) * 8
    · simp [hk, show k / 8 < n * 5 / 8 + 2 by omega, show k / 8 ≠ n * 5 / 8 + 1 by omega]
    · rw [hres k (by omega)]
      by_cases hi : k / 8 = n * 5 / 8 + 1
      · simp [hk, hi, show n * 5 ≤ k by omega, show k % 8 < 8 by omega,
          show 8 - n * 5 % 8 + k % 8 = k - n * 5 by omega]
      · simp [hk, hi, testBit_of_lt hd (show 5 ≤ k - n * 5 by omega)]
  · rename_i hnext
    rw [hfirst]
    by_cases hk : k < (n * 5 / 8 + 1) * 8
    · simp [hk]
    · have hzero : d.testBit (k - n * 5) = false := by
        have hbit := congrArg (Nat.testBit · (k - n * 5 - (8 - n * 5 % 8))) (not_not.mp hnext)
        simp only [Nat.testBit_shiftRight, Nat.zero_testBit] at hbit
        rwa [show 8 - n * 5 % 8 + (k - n * 5 - (8 - n * 5 % 8)) = k - n * 5 by omega] at hbit
      simp [hk, hzero]

/-- The bytes read back from the first `n` digits. -/
def placed (bs : Bytes) (n : Nat) : Bytes :=
  (List.range n).foldl (fun res n => place res n (digit bs n)) []

theorem placed_succ (bs : Bytes) (n : Nat) :
    placed bs (n + 1) = place (placed bs n) n (digit bs n) := by
  simp [placed, List.range_succ, List.foldl_append]

theorem bitAt_placed (bs : Bytes) (n k : Nat) :
    bitAt (placed bs n) k = (decide (k < n * 5) && bitAt bs k) := by
  induction n generalizing k with
  | zero => simp [placed, bitAt]
  | succ n ih =>
      rw [placed_succ, bitAt_place (fun k hk => by simp [ih, show ¬ k < n * 5 by omega])
        (digit_lt bs n), ih]
      by_cases hold : k < n * 5
      · simp [hold, show ¬ n * 5 ≤ k by omega, show k < (n + 1) * 5 by omega]
      · by_cases hnew : k < (n + 1) * 5
        · rw [testBit_digit bs n (show k - n * 5 < 5 by omega),
            show n * 5 + (k - n * 5) = k by omega]
          simp [hold, hnew, show n * 5 ≤ k by omega]
        · have hzero : (digit bs n).testBit (k - n * 5) = false :=
            testBit_of_lt (digit_lt bs n) (by omega)
          simp [hold, hnew, hzero]

theorem lookupReverse_characters (n : Fin 32) : lookupReverse (characters.getD n.val 0) = some n.val := by
  revert n
  decide

theorem decode_eq_placed {bs : Bytes} (h : bs ≠ []) :
    decode (encode bs) = .ok (placed bs (encodedLength bs.length)) := by
  have hrev : (encode bs).reverse =
      (List.range (encodedLength bs.length)).map fun n => characters.getD (digit bs n) 0 := by
    rw [encode, if_neg h, List.map_reverse, List.reverse_reverse]
  have hgo : ∀ len, ((List.range len).map fun n => characters.getD (digit bs n) 0).zipIdx.foldlM
      (fun res (c, n) =>
        match lookupReverse c with
        | some digit => (.ok (place res n digit) : Except Error Bytes)
        | none => .error (formatError
            "invalid character in Nix32 (Nix's Base32 variation) string: '%c'" [[c]])) [] =
      .ok (placed bs len) := by
    intro len
    induction len with
    | zero => rfl
    | succ len ih =>
        rw [List.range_succ, List.map_append, List.zipIdx_append, List.foldlM_append, ih,
          placed_succ]
        have hchar := lookupReverse_characters ⟨digit bs len, digit_lt bs len⟩
        simp only [List.map_cons, List.map_nil, List.length_map, List.length_range,
          List.zipIdx_cons, List.zipIdx_nil, List.foldlM_cons, List.foldlM_nil, zero_add, hchar]
        rfl
  rw [decode, hrev]
  exact hgo _

theorem length_placed (bs : Bytes) {n : Nat} (hlast : digit bs n >>> (8 - n * 5 % 8) = 0) :
    (placed bs (n + 1)).length = n * 5 / 8 + 1 := by
  rw [placed_succ, place]
  rw [if_neg (not_not.mpr hlast), List.length_modify, length_resize]

/-- The last digit has no bit beyond the last byte. -/
theorem length_placed_encodedLength {bs : Bytes} (h : bs ≠ []) :
    (placed bs (encodedLength bs.length)).length = bs.length := by
  have hpos := List.length_pos_of_ne_nil h
  have hzero : ∀ k, bs.length * 8 ≤ k → bitAt bs k = false := by
    intro k hk
    rw [bitAt, getD_of_le (by omega)]
    simp
  have hend : (bs.length * 8 - 1) / 5 * 5 / 8 + 1 = bs.length := by omega
  have hlast : digit bs ((bs.length * 8 - 1) / 5) >>> (8 - (bs.length * 8 - 1) / 5 * 5 % 8) = 0 := by
    apply Nat.eq_of_testBit_eq
    intro m
    rw [Nat.testBit_shiftRight, Nat.zero_testBit]
    by_cases hm : 8 - (bs.length * 8 - 1) / 5 * 5 % 8 + m < 5
    · rw [testBit_digit bs _ hm]
      exact hzero _ (by omega)
    · exact testBit_of_lt (digit_lt bs _) (by omega)
  rw [encodedLength, length_placed bs hlast, hend]

theorem placed_encodedLength {bs : Bytes} (h : bs ≠ []) :
    placed bs (encodedLength bs.length) = bs := by
  apply eq_of_bitAt (length_placed_encodedLength h)
  intro k
  rw [bitAt_placed]
  by_cases hk : k < encodedLength bs.length * 5
  · simp [hk]
  · have hzero : bitAt bs k = false := by
      rw [encodedLength] at hk
      rw [bitAt, getD_of_le (by omega)]
      simp
    simp [hk, hzero]

/-- Any bytes read back. -/
theorem decode_encode (bs : Bytes) : decode (encode bs) = .ok bs := by
  by_cases h : bs = []
  · rw [h]
    rfl
  · rw [decode_eq_placed h, placed_encodedLength h]

end BaseNix32

/-! ## Prefixed hashes -/

theorem splitPrefixTo_eq {before after : Bytes} {separator : UInt8} (h : separator ∉ before) :
    splitPrefixTo (before ++ separator :: after) separator = some (before, after) := by
  have hall : ∀ c ∈ before, decide (c ≠ separator) = true := fun c hc => by
    simpa using fun heq : c = separator => h (heq ▸ hc)
  rw [splitPrefixTo, if_pos (by simp), List.takeWhile_append_of_pos hall,
    List.dropWhile_append_of_pos hall]
  simp

theorem parseAnyPrefixed_eq (rest : Bytes) : Hash.parseAnyPrefixed (str "sha256:" ++ rest) =
    (baseFromSize rest >>= parseLowLevel rest) := by
  have hsplit : splitAlgo (str "sha256:" ++ rest) = .ok (hashAlgoName, rest, false) := by
    have hcolon : (58 : UInt8) ∉ hashAlgoName := by decide
    rw [splitAlgo, show str "sha256:" ++ rest = hashAlgoName ++ 58 :: rest from rfl,
      splitPrefixTo_eq hcolon]
  rw [Hash.parseAnyPrefixed, hsplit]
  rfl

theorem parseLowLevel_eq {rest : Bytes} {hash : Hash} {pair : DecodeNamePair}
    (h : pair.decode rest = .ok hash) (hlen : hash.length = hashSizeSha256) :
    parseLowLevel rest pair = .ok hash := by
  rw [parseLowLevel, h]
  exact if_neg (not_not.mpr hlen)

/-- `to_string(HashFormat::Base16, true)` reads back. -/
theorem parseAnyPrefixed_base16 {hash : Hash} (hlen : hash.length = hashSizeSha256) :
    Hash.parseAnyPrefixed hash.base16 = .ok hash := by
  rw [show hash.base16 = str "sha256:" ++ Base16.encode hash from rfl, parseAnyPrefixed_eq,
    baseFromSize, Base16.length_encode, hlen, if_pos rfl]
  exact parseLowLevel_eq (Base16.decode_encode hash) hlen

/-- `to_string(HashFormat::Nix32, true)` reads back. -/
theorem parseAnyPrefixed_nix32 {hash : Hash} (hlen : hash.length = hashSizeSha256) :
    Hash.parseAnyPrefixed (str "sha256:" ++ hash.nix32) = .ok hash := by
  have hne : hash ≠ [] := by
    rintro rfl
    cases hlen
  have hsize : hash.nix32.length = BaseNix32.encodedLength hashSizeSha256 := by
    rw [← hlen]
    exact BaseNix32.length_encode hne
  rw [parseAnyPrefixed_eq, baseFromSize, hsize, if_neg (by decide), if_pos rfl]
  exact parseLowLevel_eq (BaseNix32.decode_encode hash) hlen

end Util
end Archinix
