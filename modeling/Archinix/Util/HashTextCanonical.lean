import Archinix.Util.HashText

/-!
# Hash texts are canonical

`Hash::to_string` in its three formats, and `parseAnyPrefixed` the other way: a hash
reads back from every format, and a text of 64 or 52 characters that is read is the
rendering of the hash it gives, up to letter case in the base-16 form.
-/

namespace Archinix
namespace Util

namespace Base64

/-- The inner loop of `base64::encode`: the digits of which all six bits are there, and the
bits left over. -/
def drain (data nbits : Nat) : Bytes × Nat :=
  if 6 ≤ nbits then
    let nbits := nbits - 6
    let r := drain data nbits
    (characters.getD (data >>> nbits &&& 0x3f) 0 :: r.1, r.2)
  else ([], nbits)
termination_by nbits

/-- The loop of `base64::encode`: `data` is an `int`, of which the low bits are read. -/
def encodeFrom (data nbits : Nat) : Bytes → Bytes
  | [] => if nbits ≠ 0 then [characters.getD (data <<< (6 - nbits) &&& 0x3f) 0] else []
  | c :: rest =>
      let data := (data <<< 8 ||| c.toNat) % 2 ^ 32
      let r := drain data (nbits + 8)
      r.1 ++ encodeFrom data r.2 rest

def encode (s : Bytes) : Bytes :=
  let res := encodeFrom 0 0 s
  res ++ List.replicate ((4 - res.length % 4) % 4) 61

end Base64

inductive HashFormat where
  | base16
  | nix32
  | sri
  deriving DecidableEq

/-- `Hash::to_string`. -/
def Hash.toString (hash : Hash) (hashFormat : HashFormat) (includeAlgo : Bool) : Bytes :=
  (if hashFormat = .sri ∨ includeAlgo then
    hashAlgoName ++ (if hashFormat = .sri then str "-" else str ":")
  else []) ++
  match hashFormat with
  | .base16 => Base16.encode hash
  | .nix32 => BaseNix32.encode hash
  | .sri => Base64.encode hash

/-! ## Base 64 -/

namespace Base64

theorem drain_lt {nbits : Nat} (data : Nat) (h : nbits < 6) : drain data nbits = ([], nbits) := by
  rw [drain, if_neg (by omega)]

theorem drain_add (data nbits : Nat) : drain data (nbits + 6) =
    (characters.getD (data >>> nbits &&& 0x3f) 0 :: (drain data nbits).1, (drain data nbits).2) := by
  rw [drain, if_pos (by omega)]
  rfl

/-- The character of a digit is no padding and no newline, and reads back. -/
theorem decodeFrom_character (d bits : Nat) {digit : Nat} (hdigit : digit < 64) (rest : Bytes) :
    decodeFrom d bits (characters.getD digit 0 :: rest) =
      if bits + 6 ≥ 8 then
        (decodeFrom ((d <<< 6 ||| digit) % 2 ^ 32) (bits + 6 - 8) rest).map
          (UInt8.ofNat (((d <<< 6 ||| digit) % 2 ^ 32) >>> (bits + 6 - 8)) :: ·)
      else decodeFrom ((d <<< 6 ||| digit) % 2 ^ 32) (bits + 6) rest := by
  have hchar : ∀ n : Fin 64, characters.getD n.val 0 ≠ 61 ∧ characters.getD n.val 0 ≠ 10 ∧
      characters.idxOf? (characters.getD n.val 0) = some n.val := by decide +kernel
  obtain ⟨hpad, hnewline, hindex⟩ := hchar ⟨digit, hdigit⟩
  rw [decodeFrom, if_neg hpad, if_neg hnewline, hindex]

/-- A byte appended to the data, and a digit to what was read. -/
theorem shiftLeft_or_byte (data : Nat) (c : UInt8) : data <<< 8 ||| c.toNat = data * 256 + c.toNat := by
  rw [← Nat.shiftLeft_add_eq_or_of_lt c.toNat_lt, Nat.shiftLeft_eq]

theorem shiftLeft_or_digit (d : Nat) {digit : Nat} (h : digit < 64) : d <<< 6 ||| digit = d * 64 + digit := by
  rw [← Nat.shiftLeft_add_eq_or_of_lt (show digit < 2 ^ 6 from h), Nat.shiftLeft_eq]

theorem and_mask (n : Nat) : n &&& 0x3f = n % 64 := Nat.and_two_pow_sub_one_eq_mod n 6

theorem ofNat_eq_byte {n : Nat} {c : UInt8} (h : n % 256 = c.toNat) : UInt8.ofNat n = c := by
  rw [← UInt8.toNat_inj, UInt8.toNat_ofNat']
  exact h

theorem decodeFrom_padding (d bits n : Nat) : decodeFrom d bits (List.replicate n 61) = .ok [] := by
  cases n with
  | zero => rfl
  | succ n => rw [List.replicate_succ, decodeFrom, if_pos rfl]

/-- One digit with which no byte ends. -/
theorem decodeFrom_first (d : Nat) {digit : Nat} (h : digit < 64) (rest : Bytes) :
    decodeFrom d 0 (characters.getD digit 0 :: rest) = decodeFrom ((d * 64 + digit) % 2 ^ 32) 6 rest := by
  rw [decodeFrom_character d 0 h, if_neg (by decide), shiftLeft_or_digit d h]

/-- One digit with which a byte ends. -/
theorem decodeFrom_next (d left : Nat) {digit : Nat} (h : digit < 64) (rest : Bytes) :
    decodeFrom d (left + 2) (characters.getD digit 0 :: rest) =
      (decodeFrom ((d * 64 + digit) % 2 ^ 32) left rest).map
        (UInt8.ofNat ((d * 64 + digit) % 2 ^ 32 / 2 ^ left) :: ·) := by
  rw [decodeFrom_character d _ h, if_pos (by omega), shiftLeft_or_digit d h,
    show left + 2 + 6 - 8 = left by omega, Nat.shiftRight_eq_div_pow]

/-- The encoder's data after one more byte. -/
def push (data : Nat) (c : UInt8) : Nat := (data * 256 + c.toNat) % 2 ^ 32

theorem push_mod (data : Nat) (c : UInt8) : push data c % 256 = c.toNat := by
  have hc := c.toNat_lt
  unfold push
  omega

theorem encodeFrom_cons (data nbits : Nat) (c : UInt8) (rest : Bytes) :
    encodeFrom data nbits (c :: rest) =
      (drain (push data c) (nbits + 8)).1 ++
        encodeFrom (push data c) (drain (push data c) (nbits + 8)).2 rest := by
  rw [encodeFrom, shiftLeft_or_byte]
  rfl

/-- The first of three bytes gives a digit and leaves two bits. -/
theorem encodeFrom_first (data : Nat) (c : UInt8) (rest : Bytes) : encodeFrom data 0 (c :: rest) =
    characters.getD (c.toNat / 4) 0 :: encodeFrom (push data c) 2 rest := by
  have hdigit : push data c / 2 ^ 2 % 64 = c.toNat / 4 := by
    have hc := c.toNat_lt
    unfold push
    omega
  rw [encodeFrom_cons, show 0 + 8 = 2 + 6 from rfl, drain_add, drain_lt _ (by decide), and_mask,
    Nat.shiftRight_eq_div_pow, hdigit]
  rfl

/-- The second gives one with the two bits before it, and leaves four. -/
theorem encodeFrom_second (data : Nat) (c : UInt8) (rest : Bytes) : encodeFrom data 2 (c :: rest) =
    characters.getD (data % 4 * 16 + c.toNat / 16) 0 :: encodeFrom (push data c) 4 rest := by
  have hdigit : push data c / 2 ^ 4 % 64 = data % 4 * 16 + c.toNat / 16 := by
    have hc := c.toNat_lt
    unfold push
    omega
  rw [encodeFrom_cons, show 2 + 8 = 4 + 6 from rfl, drain_add, drain_lt _ (by decide), and_mask,
    Nat.shiftRight_eq_div_pow, hdigit]
  rfl

/-- The third gives two and leaves no bits. -/
theorem encodeFrom_third (data : Nat) (c : UInt8) (rest : Bytes) : encodeFrom data 4 (c :: rest) =
    characters.getD (data % 16 * 4 + c.toNat / 64) 0 :: characters.getD (c.toNat % 64) 0 ::
      encodeFrom (push data c) 0 rest := by
  have hhigh : push data c / 2 ^ 6 % 64 = data % 16 * 4 + c.toNat / 64 := by
    have hc := c.toNat_lt
    unfold push
    omega
  have hlow : push data c / 2 ^ 0 % 64 = c.toNat % 64 := by
    have hmod := push_mod data c
    omega
  rw [encodeFrom_cons, show 4 + 8 = 0 + 6 + 6 from rfl, drain_add, drain_add, drain_lt _ (by decide),
    and_mask, and_mask, Nat.shiftRight_eq_div_pow, Nat.shiftRight_eq_div_pow, hhigh, hlow]
  rfl

/-- The bits left over are padded with zeros. -/
theorem encodeFrom_nil_two (data : Nat) : encodeFrom data 2 [] = [characters.getD (data % 4 * 16 + 0) 0] := by
  have hdigit : data * 2 ^ 4 % 64 = data % 4 * 16 + 0 := by omega
  rw [encodeFrom, if_pos (by decide), and_mask, Nat.shiftLeft_eq, hdigit]

theorem encodeFrom_nil_four (data : Nat) : encodeFrom data 4 [] = [characters.getD (data % 16 * 4) 0] := by
  have hdigit : data * 2 ^ 2 % 64 = data % 16 * 4 := by omega
  rw [encodeFrom, if_pos (by decide), and_mask, Nat.shiftLeft_eq, hdigit]

/-- The first two digits give a byte, whatever was read before; four bits are left. -/
theorem decodeFrom_first_byte (d : Nat) (a : UInt8) {low : Nat} (hlow : low < 16) (rest : Bytes) :
    ∃ d', d' % 16 = low ∧
      decodeFrom d 0
          (characters.getD (a.toNat / 4) 0 :: characters.getD (a.toNat % 4 * 16 + low) 0 :: rest) =
        (decodeFrom d' 4 rest).map (a :: ·) := by
  have ha := a.toNat_lt
  rw [decodeFrom_first d (by omega), decodeFrom_next _ 4 (by omega)]
  refine ⟨_, ?_, congrArg (fun byte : UInt8 => Except.map (byte :: ·) _) (ofNat_eq_byte ?_)⟩
  · omega
  · omega

/-- The third gives one with the four bits, and two are left. -/
theorem decodeFrom_second_byte {d : Nat} (b : UInt8) (hd : d % 16 = b.toNat / 16) {low : Nat}
    (hlow : low < 4) (rest : Bytes) :
    ∃ d', d' % 4 = low ∧
      decodeFrom d 4 (characters.getD (b.toNat % 16 * 4 + low) 0 :: rest) =
        (decodeFrom d' 2 rest).map (b :: ·) := by
  have hb := b.toNat_lt
  rw [decodeFrom_next d 2 (by omega)]
  refine ⟨_, ?_, congrArg (fun byte : UInt8 => Except.map (byte :: ·) _) (ofNat_eq_byte ?_)⟩
  · omega
  · omega

/-- The fourth gives one with the two bits. -/
theorem decodeFrom_third_byte {d : Nat} (c : UInt8) (hd : d % 4 = c.toNat / 64) (rest : Bytes) :
    ∃ d', decodeFrom d 2 (characters.getD (c.toNat % 64) 0 :: rest) =
      (decodeFrom d' 0 rest).map (c :: ·) := by
  rw [decodeFrom_next d 0 (by omega)]
  refine ⟨_, congrArg (fun byte : UInt8 => Except.map (byte :: ·) _) (ofNat_eq_byte ?_)⟩
  omega

/-- Three bytes at a time: what the loops carry over is not looked at again. -/
theorem decodeFrom_encodeFrom (bs : Bytes) (data d n : Nat) :
    decodeFrom d 0 (encodeFrom data 0 bs ++ List.replicate n 61) = .ok bs := by
  have hlow (a : UInt8) (data : Nat) : push data a % 4 = a.toNat % 4 := by
    have hmod := push_mod data a
    omega
  have hlow' (b : UInt8) (data : Nat) : push data b % 16 = b.toNat % 16 := by
    have hmod := push_mod data b
    omega
  match bs with
  | [] => exact decodeFrom_padding d 0 n
  | [a] =>
      obtain ⟨d₁, -, hfirst⟩ := decodeFrom_first_byte d a (show 0 < 16 by decide) (List.replicate n 61)
      rw [encodeFrom_first, encodeFrom_nil_two, hlow, List.cons_append, List.cons_append,
        List.nil_append, hfirst, decodeFrom_padding]
      rfl
  | [a, b] =>
      have hb := b.toNat_lt
      obtain ⟨d₁, hd₁, hfirst⟩ := decodeFrom_first_byte d a (show b.toNat / 16 < 16 by omega)
        (characters.getD (b.toNat % 16 * 4 + 0) 0 :: List.replicate n 61)
      obtain ⟨d₂, -, hsecond⟩ := decodeFrom_second_byte b hd₁ (show 0 < 4 by decide)
        (List.replicate n 61)
      rw [encodeFrom_first, encodeFrom_second, encodeFrom_nil_four, hlow, hlow', List.cons_append,
        List.cons_append, List.cons_append, List.nil_append]
      rw [Nat.add_zero] at hfirst hsecond
      rw [hfirst, hsecond, decodeFrom_padding]
      rfl
  | a :: b :: c :: rest =>
      have hb := b.toNat_lt
      have hc := c.toNat_lt
      rw [encodeFrom_first, encodeFrom_second, encodeFrom_third, hlow, hlow', List.cons_append,
        List.cons_append, List.cons_append, List.cons_append]
      generalize push (push (push data a) b) c = data
      obtain ⟨d₁, hd₁, hfirst⟩ := decodeFrom_first_byte d a (show b.toNat / 16 < 16 by omega)
        (characters.getD (b.toNat % 16 * 4 + c.toNat / 64) 0 :: characters.getD (c.toNat % 64) 0 ::
          (encodeFrom data 0 rest ++ List.replicate n 61))
      obtain ⟨d₂, hd₂, hsecond⟩ := decodeFrom_second_byte b hd₁ (show c.toNat / 64 < 4 by omega)
        (characters.getD (c.toNat % 64) 0 :: (encodeFrom data 0 rest ++ List.replicate n 61))
      obtain ⟨d₃, hthird⟩ := decodeFrom_third_byte c hd₂
        (encodeFrom data 0 rest ++ List.replicate n 61)
      rw [hfirst, hsecond, hthird, decodeFrom_encodeFrom rest data d₃ n]
      rfl

theorem mem_characters (n : Nat) : characters.getD (n &&& 0x3f) 0 ∈ characters := by
  have hlt : n &&& 0x3f < characters.length := Nat.lt_succ_of_le Nat.and_le_right
  rw [List.getD_eq_getElem _ _ hlt]
  exact List.getElem_mem hlt

theorem mem_drain {data nbits : Nat} {c : UInt8} (h : c ∈ (drain data nbits).1) : c ∈ characters := by
  induction nbits using Nat.strong_induction_on with
  | _ nbits ih =>
      rw [drain] at h
      split at h
      · rcases List.mem_cons.mp h with rfl | hrest
        · exact mem_characters _
        · exact ih _ (by omega) hrest
      · cases h

/-- Every character is one of the 64 or padding. -/
theorem mem_encodeFrom {s : Bytes} {data nbits : Nat} {c : UInt8} (h : c ∈ encodeFrom data nbits s) :
    c ∈ characters := by
  induction s generalizing data nbits with
  | nil =>
      rw [encodeFrom] at h
      split at h
      · rw [List.mem_singleton.mp h]
        exact mem_characters _
      · cases h
  | cons byte s ih =>
      rcases List.mem_append.mp h with hdrain | hrest
      · exact mem_drain hdrain
      · exact ih hrest

theorem mem_encode {s : Bytes} {c : UInt8} (h : c ∈ encode s) : c ∈ characters ∨ c = 61 :=
  (List.mem_append.mp h).imp mem_encodeFrom List.eq_of_mem_replicate

/-- Any bytes read back. -/
theorem decode_encode (s : Bytes) : decode (encode s) = .ok s := decodeFrom_encodeFrom s 0 0 _

end Base64

/-! ## Base 16 -/

/-- `std::tolower`. -/
def toLower (c : UInt8) : UInt8 := if 65 ≤ c ∧ c ≤ 90 then c + 32 else c

namespace Base16

/-- A digit is written as its character, but for the case of its letter. -/
theorem characters_parseHexDigit {c digit : UInt8} (h : parseHexDigit c = .ok digit) :
    digit.toNat < 16 ∧ characters.getD digit.toNat 0 = toLower c := by
  have hall : ∀ n : Fin 256, (parseHexDigit (UInt8.ofNat n.val)).toOption.all (fun digit =>
      decide (digit.toNat < 16 ∧
        characters.getD digit.toNat 0 = toLower (UInt8.ofNat n.val))) = true := by decide +kernel
  have hc := hall ⟨c.toNat, c.toNat_lt⟩
  rw [UInt8.ofNat_toNat, h] at hc
  exact of_decide_eq_true hc

/-- The two digits of a byte. -/
theorem digits_join {high low : UInt8} (hhigh : high.toNat < 16) (hlow : low.toNat < 16) :
    (high <<< 4 ||| low).toNat >>> 4 = high.toNat ∧ (high <<< 4 ||| low).toNat &&& 0x0f = low.toNat := by
  have hall : ∀ high low : Fin 16,
      (UInt8.ofNat high.val <<< 4 ||| UInt8.ofNat low.val).toNat >>> 4 = high.val ∧
      (UInt8.ofNat high.val <<< 4 ||| UInt8.ofNat low.val).toNat &&& 0x0f = low.val := by
    decide +kernel
  have hjoin := hall ⟨_, hhigh⟩ ⟨_, hlow⟩
  rwa [UInt8.ofNat_toNat, UInt8.ofNat_toNat] at hjoin

theorem encode_cons (byte : UInt8) (bs : Bytes) : encode (byte :: bs) =
    characters.getD (byte.toNat >>> 4) 0 :: characters.getD (byte.toNat &&& 0x0f) 0 :: encode bs := rfl

/-- A text that is read is what its bytes are written as, in lower case. -/
theorem encode_decode {s bs : Bytes} (heven : s.length % 2 = 0) (h : decode s = .ok bs) :
    encode bs = s.map toLower := by
  match s with
  | [] =>
      cases h
      rfl
  | [_] => simp at heven
  | high :: low :: rest =>
      rw [decode] at h
      cases hhigh : parseHexDigit high with
      | error e =>
          rw [hhigh] at h
          cases h
      | ok high' =>
          cases hlow : parseHexDigit low with
          | error e =>
              rw [hhigh, hlow] at h
              cases h
          | ok low' =>
              cases hrest : decode rest with
              | error e =>
                  rw [hhigh, hlow, hrest] at h
                  cases h
              | ok res =>
                  rw [hhigh, hlow, hrest] at h
                  cases h
                  obtain ⟨hhigh', hhighChar⟩ := characters_parseHexDigit hhigh
                  obtain ⟨hlow', hlowChar⟩ := characters_parseHexDigit hlow
                  obtain ⟨hfirst, hsecond⟩ := digits_join hhigh' hlow'
                  have hrest' : rest.length % 2 = 0 := by
                    simp only [List.length_cons] at heven
                    omega
                  rw [encode_cons, hfirst, hsecond, hhighChar, hlowChar, encode_decode hrest' hrest,
                    List.map_cons, List.map_cons]

end Base16

/-! ## Nix32 -/

namespace BaseNix32

/-- The bytes of any digits, the least significant first. -/
def placeAll (digits : List Nat) : Bytes :=
  digits.zipIdx.foldl (fun res (d, n) => place res n d) []

theorem placeAll_concat (digits : List Nat) (d : Nat) :
    placeAll (digits ++ [d]) = place (placeAll digits) digits.length d := by
  simp [placeAll, List.zipIdx_append]

/-- Every bit is that of its digit. -/
theorem bitAt_placeAll {digits : List Nat} (hdigits : ∀ d ∈ digits, d < 32) (k : Nat) :
    bitAt (placeAll digits) k = (digits.getD (k / 5) 0).testBit (k % 5) := by
  induction digits using List.reverseRecOn generalizing k with
  | nil => simp [placeAll, bitAt]
  | append_singleton digits d ih =>
      have hold := ih fun d' hd' => hdigits d' (by simp [hd'])
      have hd : d < 32 := hdigits d (by simp)
      have hzero : ∀ k, digits.length * 5 ≤ k → bitAt (placeAll digits) k = false := by
        intro k hk
        rw [hold, List.getD_eq_default _ _ (by omega), Nat.zero_testBit]
      rw [placeAll_concat, bitAt_place hzero hd]
      by_cases hk : k < digits.length * 5
      · rw [hold, List.getD_append _ _ _ _ (by omega)]
        simp [show ¬ digits.length * 5 ≤ k by omega]
      · rw [hzero k (by omega), List.getD_append_right _ _ _ _ (by omega)]
        by_cases hnew : k / 5 = digits.length
        · rw [hnew, Nat.sub_self, show k - digits.length * 5 = k % 5 by omega]
          simp [show digits.length * 5 ≤ k by omega]
        · rw [testBit_of_lt hd (by omega), List.getD_eq_default _ _ (by simp; omega)]
          simp

theorem lookupReverse_eq_some {c : UInt8} {d : Nat} (h : lookupReverse c = some d) :
    d < 32 ∧ characters.getD d 0 = c := by
  obtain ⟨hlt, hget, -⟩ := List.idxOf?_eq_some_iff.mp h
  rw [List.getD_eq_getElem _ _ hlt]
  exact ⟨hlt, hget⟩

/-- A text that is decoded consists of digits, and its bytes are theirs. -/
theorem foldlM_place {cs res : Bytes} (h : cs.zipIdx.foldlM (fun res (c, n) =>
      match lookupReverse c with
      | some digit => (.ok (place res n digit) : Except Error Bytes)
      | none => .error (formatError
          "invalid character in Nix32 (Nix's Base32 variation) string: '%c'" [[c]])) [] = .ok res) :
    ∃ digits : List Nat, (∀ d ∈ digits, d < 32) ∧ cs = digits.map (characters.getD · 0) ∧
      res = placeAll digits := by
  induction cs using List.reverseRecOn generalizing res with
  | nil =>
      cases h
      exact ⟨[], by simp, rfl, rfl⟩
  | append_singleton cs c ih =>
      rw [List.zipIdx_append, List.foldlM_append] at h
      cases hinit : cs.zipIdx.foldlM (fun res (c, n) =>
          match lookupReverse c with
          | some digit => (.ok (place res n digit) : Except Error Bytes)
          | none => .error (formatError
              "invalid character in Nix32 (Nix's Base32 variation) string: '%c'" [[c]])) [] with
      | error e =>
          rw [hinit] at h
          cases h
      | ok init =>
          obtain ⟨digits, hdigits, rfl, rfl⟩ := ih hinit
          rw [hinit] at h
          cases hlookup : lookupReverse c with
          | none =>
              simp [hlookup, Bind.bind, Except.bind] at h
          | some d =>
              obtain ⟨hd, hchar⟩ := lookupReverse_eq_some hlookup
              refine ⟨digits ++ [d], ?_, ?_, ?_⟩
              · intro d' hd'
                rcases List.mem_append.mp hd' with hold | hnew
                · exact hdigits d' hold
                · rw [List.mem_singleton.mp hnew]
                  exact hd
              · rw [List.map_append, List.map_singleton, hchar]
              · simp only [Bind.bind, Except.bind, List.zipIdx_singleton, List.foldlM_cons,
                  List.foldlM_nil, hlookup, List.length_map, Nat.zero_add] at h
                rw [placeAll_concat]
                exact (Except.ok.inj h).symm

/-- The digits of what was placed, where there are as many as its bytes take. -/
theorem digit_placeAll {digits : List Nat} (hdigits : ∀ d ∈ digits, d < 32) {n : Nat}
    (hn : n < digits.length) : digit (placeAll digits) n = digits[n] := by
  apply Nat.eq_of_testBit_eq
  intro m
  by_cases hm : m < 5
  · rw [testBit_digit _ _ hm, bitAt_placeAll hdigits, show (n * 5 + m) / 5 = n by omega,
      show (n * 5 + m) % 5 = m by omega, List.getD_eq_getElem _ _ hn]
  · rw [testBit_of_lt (digit_lt _ _) (by omega),
      testBit_of_lt (hdigits _ (List.getElem_mem hn)) (by omega)]

/-- Digits whose bytes take as many are what these are written as: the last one has no bit
in a byte that is not there. -/
theorem encode_placeAll {digits : List Nat} (hdigits : ∀ d ∈ digits, d < 32)
    (hne : placeAll digits ≠ []) (hlen : digits.length = encodedLength (placeAll digits).length) :
    encode (placeAll digits) = (digits.map (characters.getD · 0)).reverse := by
  have hdigit : (List.range digits.length).map (digit (placeAll digits)) = digits := by
    refine List.ext_getElem (by simp) fun n hn hn' => ?_
    rw [List.getElem_map, List.getElem_range, digit_placeAll hdigits hn']
  rw [encode, if_neg hne, ← hlen, List.map_reverse]
  conv_rhs => rw [← hdigit, List.map_map]
  rfl

/-- A text with the length of what it gives encoded is what that is written as. -/
theorem encode_decode {s bs : Bytes} (hne : bs ≠ []) (hlen : s.length = encodedLength bs.length)
    (h : decode s = .ok bs) : encode bs = s := by
  obtain ⟨digits, hdigits, hs, rfl⟩ := foldlM_place h
  have hcount : digits.length = encodedLength (placeAll digits).length := by
    rw [← hlen, ← List.length_map (fun d => characters.getD d 0), ← hs, List.length_reverse]
  rw [encode_placeAll hdigits hne hcount, ← hs, List.reverse_reverse]

end BaseNix32

/-! ## Formats -/

/-- What is left of a `parseAnyPrefixed` that returns. -/
theorem parseLowLevel_eq_ok {rest : Bytes} {pair : DecodeNamePair} {hash : Hash}
    (h : parseLowLevel rest pair = .ok hash) :
    pair.decode rest = .ok hash ∧ hash.length = hashSizeSha256 := by
  rw [parseLowLevel] at h
  cases hdecode : pair.decode rest with
  | error e =>
      rw [hdecode] at h
      cases h
  | ok d =>
      rw [hdecode] at h
      dsimp only at h
      split at h
      · cases h
      · rename_i hlen
        cases h
        exact ⟨rfl, not_not.mp hlen⟩

/-- Whatever the decoder says, the refusal is a `BadHash`. -/
theorem cls_parseLowLevel {rest : Bytes} {pair : DecodeNamePair} {e : Error}
    (h : parseLowLevel rest pair = .error e) : e.cls = .badHash := by
  rw [parseLowLevel] at h
  cases hdecode : pair.decode rest with
  | error _ =>
      rw [hdecode] at h
      cases h
      rfl
  | ok d =>
      rw [hdecode] at h
      dsimp only at h
      split at h
      · cases h
        rfl
      · cases h

theorem cls_baseFromSize {rest : Bytes} {e : Error} (h : baseFromSize rest = .error e) :
    e.cls = .badHash := by
  rw [baseFromSize] at h
  split at h
  · cases h
  · split at h
    · cases h
    · split at h
      · cases h
      · cases h
        rfl

theorem cls_splitAlgo {original : Bytes} {e : Error} (h : splitAlgo original = .error e) :
    e.cls = .badHash := by
  rw [splitAlgo] at h
  split at h
  · cases h
  · split at h
    · cases h
    · cases h
      rfl

theorem cls_parseAnyPrefixed {original : Bytes} {e : Error}
    (h : Hash.parseAnyPrefixed original = .error e) : e.cls = .badHash := by
  rw [Hash.parseAnyPrefixed] at h
  cases hsplit : splitAlgo original with
  | error e' =>
      rw [hsplit] at h
      cases h
      exact cls_splitAlgo hsplit
  | ok r =>
      obtain ⟨algo, rest, isSRI⟩ := r
      rw [hsplit] at h
      simp only [Bind.bind, Except.bind] at h
      split at h
      · cases h
        rfl
      · split at h
        · exact cls_parseLowLevel h
        · cases hbase : baseFromSize rest with
          | error e' =>
              rw [hbase] at h
              cases h
              exact cls_baseFromSize hbase
          | ok pair =>
              rw [hbase] at h
              exact cls_parseLowLevel h

/-- No colon stands in an SRI text, and its first dash ends the algorithm. -/
theorem splitAlgo_sri (hash : Hash) :
    splitAlgo (hash.toString .sri true) = .ok (hashAlgoName, Base64.encode hash, true) := by
  have htext : hash.toString .sri true = hashAlgoName ++ 45 :: Base64.encode hash := rfl
  have hcolon : (58 : UInt8) ∉ hashAlgoName ++ 45 :: Base64.encode hash := by
    intro hmem
    rcases List.mem_append.mp hmem with halgo | hrest
    · revert halgo
      decide
    · rcases List.mem_cons.mp hrest with heq | hdigits
      · revert heq
        decide
      · rcases Base64.mem_encode hdigits with hchar | hpad
        · revert hchar
          decide
        · revert hpad
          decide
  have hdash : (45 : UInt8) ∉ hashAlgoName := by decide
  have hnone : splitPrefixTo (hashAlgoName ++ 45 :: Base64.encode hash) 58 = none := by
    rw [splitPrefixTo, if_neg hcolon]
  rw [splitAlgo, htext, hnone, splitPrefixTo_eq hdash]

/-- A hash that is read has the size of a SHA-256 hash. -/
theorem length_parseAnyPrefixed {rest : Bytes} {hash : Hash}
    (h : Hash.parseAnyPrefixed (str "sha256:" ++ rest) = .ok hash) : hash.length = hashSizeSha256 := by
  rw [parseAnyPrefixed_eq] at h
  cases hbase : baseFromSize rest with
  | error e =>
      rw [hbase] at h
      cases h
  | ok pair =>
      rw [hbase] at h
      exact (parseLowLevel_eq_ok h).2

/-- A SHA-256 hash reads back from each of its formats. -/
theorem parseAnyPrefixed_toString {hash : Hash} (hlen : hash.length = hashSizeSha256)
    (hashFormat : HashFormat) : Hash.parseAnyPrefixed (hash.toString hashFormat true) = .ok hash := by
  cases hashFormat with
  | base16 => exact parseAnyPrefixed_base16 hlen
  | nix32 => exact parseAnyPrefixed_nix32 hlen
  | sri =>
      rw [Hash.parseAnyPrefixed, splitAlgo_sri]
      exact parseLowLevel_eq (Base64.decode_encode hash) hlen

/-- A text of 64 characters that is read is the rendering of its hash, in lower case. -/
theorem toString_parseAnyPrefixed_base16 {rest : Bytes} {hash : Hash}
    (hlen : rest.length = Base16.encodedLength hashSizeSha256)
    (h : Hash.parseAnyPrefixed (str "sha256:" ++ rest) = .ok hash) :
    hash.toString .base16 true = (str "sha256:" ++ rest).map toLower := by
  rw [parseAnyPrefixed_eq, baseFromSize, if_pos hlen] at h
  obtain ⟨hdecode, -⟩ := parseLowLevel_eq_ok h
  have htext : Base16.encode hash = rest.map toLower :=
    Base16.encode_decode (by rw [hlen]; rfl) hdecode
  have halgo : (str "sha256:").map toLower = str "sha256:" := by decide
  rw [List.map_append, halgo, ← htext]
  rfl

/-- A text of 52 characters that is read is the rendering of its hash. -/
theorem toString_parseAnyPrefixed_nix32 {rest : Bytes} {hash : Hash}
    (hlen : rest.length = BaseNix32.encodedLength hashSizeSha256)
    (h : Hash.parseAnyPrefixed (str "sha256:" ++ rest) = .ok hash) :
    hash.toString .nix32 true = str "sha256:" ++ rest := by
  have hbase16 : rest.length ≠ Base16.encodedLength hashSizeSha256 := by
    rw [hlen]
    decide
  rw [parseAnyPrefixed_eq, baseFromSize, if_neg hbase16, if_pos hlen] at h
  obtain ⟨hdecode, hsize⟩ := parseLowLevel_eq_ok h
  have hne : hash ≠ [] := by
    rintro rfl
    cases hsize
  have htext : BaseNix32.encode hash = rest :=
    BaseNix32.encode_decode hne (by rw [hlen, hsize]) hdecode
  rw [← htext]
  rfl

/-- Hash texts round-trip, are canonical, and are refused with `BadHash` only. -/
theorem hash_texts_canonical :
    (∀ hash : Hash, hash.length = hashSizeSha256 →
      ∀ hashFormat, Hash.parseAnyPrefixed (hash.toString hashFormat true) = .ok hash) ∧
    (∀ rest hash, rest.length = 64 → Hash.parseAnyPrefixed (str "sha256:" ++ rest) = .ok hash →
      hash.length = hashSizeSha256 ∧
      hash.toString .base16 true = (str "sha256:" ++ rest).map toLower) ∧
    (∀ rest hash, rest.length = 52 → Hash.parseAnyPrefixed (str "sha256:" ++ rest) = .ok hash →
      hash.length = hashSizeSha256 ∧ hash.toString .nix32 true = str "sha256:" ++ rest) ∧
    ∀ s e, Hash.parseAnyPrefixed s = .error e → e.cls = .badHash := by
  refine ⟨fun hash hlen => parseAnyPrefixed_toString hlen, fun rest hash hlen h => ⟨?_, ?_⟩,
    fun rest hash hlen h => ⟨?_, ?_⟩, fun s e => cls_parseAnyPrefixed⟩
  · exact length_parseAnyPrefixed h
  · exact toString_parseAnyPrefixed_base16 hlen h
  · exact length_parseAnyPrefixed h
  · exact toString_parseAnyPrefixed_nix32 hlen h

/-- The zero hash, written and read, and a text with a character that is no digit. -/
theorem hash_texts_canonical_null :
    Hash.parseAnyPrefixed (nullHash.toString .sri true) = .ok nullHash ∧
    nullHash.toString .nix32 true = str "sha256:" ++ List.replicate 52 48 ∧
    (badHash "invalid %s hash '%s', length %d != expected length %d"
      [str "nix32", List.replicate 52 101, natStr 0, natStr 32]).cls = .badHash := by
  have hread : Hash.parseAnyPrefixed (str "sha256:" ++ List.replicate 52 48) = .ok nullHash := by
    decide +kernel
  have hrefused : Hash.parseAnyPrefixed (str "sha256:" ++ List.replicate 52 101) =
      .error (badHash "invalid %s hash '%s', length %d != expected length %d"
        [str "nix32", List.replicate 52 101, natStr 0, natStr 32]) := by decide +kernel
  exact ⟨hash_texts_canonical.1 nullHash rfl .sri,
    (hash_texts_canonical.2.2.1 _ nullHash (List.length_replicate ..) hread).2,
    hash_texts_canonical.2.2.2 _ _ hrefused⟩

end Util
end Archinix
