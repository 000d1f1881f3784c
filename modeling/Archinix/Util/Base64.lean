import Archinix.Util.HashTextCanonical

/-!
# Base64 with its accumulators

`base64::encode` and `base64::decode` shift into a 32-bit accumulator that is never
masked: an `int` in one direction and an `unsigned int` (`decodeFrom`) in the other.
Only the bits not written yet are looked at, so both give what accumulators without
bound give.
-/

namespace Archinix
namespace Util
namespace Base64

/-- The inner loop of `base64::encode`.  `data` is an `int`: `>>` repeats its sign. -/
def drainInt (data : BitVec 32) (nbits : Nat) : Bytes × Nat :=
  if 6 ≤ nbits then
    let nbits := nbits - 6
    let r := drainInt data nbits
    (characters.getD (data.sshiftRight nbits &&& 0x3f).toNat 0 :: r.1, r.2)
  else ([], nbits)
termination_by nbits

def encodeIntFrom (data : BitVec 32) (nbits : Nat) : Bytes → Bytes
  | [] => if nbits ≠ 0 then [characters.getD (data <<< (6 - nbits) &&& 0x3f).toNat 0] else []
  | c :: rest =>
      let data := data <<< 8 ||| BitVec.ofNat 32 c.toNat
      let r := drainInt data (nbits + 8)
      r.1 ++ encodeIntFrom data r.2 rest

/-- `base64::encode`. -/
def encodeInt (s : Bytes) : Bytes :=
  let res := encodeIntFrom 0 0 s
  res ++ List.replicate ((4 - res.length % 4) % 4) 61

/-! ## Accumulators without bound -/

def encodeUnboundedFrom (data nbits : Nat) : Bytes → Bytes
  | [] => if nbits ≠ 0 then [characters.getD (data <<< (6 - nbits) &&& 0x3f) 0] else []
  | c :: rest =>
      let data := data <<< 8 ||| c.toNat
      let r := drain data (nbits + 8)
      r.1 ++ encodeUnboundedFrom data r.2 rest

def encodeUnbounded (s : Bytes) : Bytes :=
  let res := encodeUnboundedFrom 0 0 s
  res ++ List.replicate ((4 - res.length % 4) % 4) 61

def decodeUnboundedFrom (d bits : Nat) : Bytes → Except Error Bytes
  | [] => .ok []
  | c :: rest =>
      if c = 61 then .ok []
      else if c = 10 then decodeUnboundedFrom d bits rest
      else
        match characters.idxOf? c with
        | none => .error (formatError "invalid character in Base64 string: '%c'" [[c]])
        | some digit =>
            let bits := bits + 6
            let d := d <<< 6 ||| digit
            if bits ≥ 8 then
              (decodeUnboundedFrom d (bits - 8) rest).map (UInt8.ofNat (d >>> (bits - 8)) :: ·)
            else decodeUnboundedFrom d bits rest

def decodeUnbounded (s : Bytes) : Except Error Bytes := decodeUnboundedFrom 0 0 s

/-! ## The inner loop -/

theorem length_drain (data nbits : Nat) : (drain data nbits).1.length = nbits / 6 := by
  induction nbits using Nat.strong_induction_on with
  | _ nbits ih =>
      rw [drain]
      split
      · have hrest := ih (nbits - 6) (by omega)
        rw [List.length_cons, hrest]
        omega
      · rw [List.length_nil]
        omega

theorem left_drain (data nbits : Nat) : (drain data nbits).2 = nbits % 6 := by
  induction nbits using Nat.strong_induction_on with
  | _ nbits ih =>
      rw [drain]
      split
      · have hrest := ih (nbits - 6) (by omega)
        rw [hrest]
        omega
      · show nbits = nbits % 6
        omega

/-- Two accumulators that agree on the bits that are pending. -/
def Agree (nbits data data' : Nat) : Prop := data % 2 ^ nbits = data' % 2 ^ nbits

theorem Agree.mono {m n data data' : Nat} (h : Agree n data data') (hm : m ≤ n) :
    Agree m data data' := by
  have hdvd : 2 ^ m ∣ 2 ^ n := Nat.pow_dvd_pow 2 hm
  exact Nat.ModEq.of_dvd hdvd h

/-- Six bits of the pending ones. -/
theorem Agree.digit {nbits data data' : Nat} (h : Agree (nbits + 6) data data') :
    data >>> nbits &&& 0x3f = data' >>> nbits &&& 0x3f := by
  have hbits : ∀ n : Nat, n >>> nbits % 2 ^ 6 = n % 2 ^ (nbits + 6) / 2 ^ nbits := by
    intro n
    rw [Nat.shiftRight_eq_div_pow, Nat.pow_add, Nat.mod_mul_right_div_self]
  rw [and_mask, and_mask, show 64 = 2 ^ 6 from rfl, hbits, hbits, h]

/-- A byte or a digit shifted in after the pending bits. -/
theorem Agree.shift {nbits data data' : Nat} (h : Agree nbits data data') {width low : Nat} :
    Agree (nbits + width) (data * 2 ^ width + low) (data' * 2 ^ width + low) := by
  unfold Agree
  rw [Nat.pow_add]
  have hmul : data * 2 ^ width ≡ data' * 2 ^ width [MOD 2 ^ nbits * 2 ^ width] :=
    Nat.ModEq.mul_right' _ h
  exact Nat.ModEq.add_right low hmul

theorem drain_agree {data data' nbits : Nat} (h : Agree nbits data data') :
    drain data nbits = drain data' nbits := by
  induction nbits using Nat.strong_induction_on with
  | _ nbits ih =>
      rw [drain, drain]
      by_cases hsix : 6 ≤ nbits
      · have hrest := ih (nbits - 6) (by omega) (h.mono (by omega))
        have hdigit : Agree (nbits - 6 + 6) data data' := h.mono (by omega)
        rw [if_pos hsix, if_pos hsix]
        dsimp only
        rw [hrest, hdigit.digit]
      · rw [if_neg hsix, if_neg hsix]

/-- What the sign is repeated into is masked. -/
theorem sshiftRight_and (data : BitVec 32) {nbits : Nat} (h : nbits ≤ 26) :
    (data.sshiftRight nbits &&& 0x3f).toNat = data.toNat >>> nbits &&& 0x3f := by
  have heq : data.sshiftRight nbits &&& 0x3f = data >>> nbits &&& 0x3f := by
    apply BitVec.eq_of_getLsbD_eq
    intro i hi
    rw [BitVec.getLsbD_and, BitVec.getLsbD_and, BitVec.getLsbD_sshiftRight,
      BitVec.getLsbD_ushiftRight]
    by_cases hlow : i < 6
    · simp [show ¬ 32 ≤ i by omega, show nbits + i < 32 by omega]
    · have hmask : (0x3f : BitVec 32).getLsbD i = false := by
        have hall : ∀ i : Fin 32, ¬ i.val < 6 → (0x3f : BitVec 32).getLsbD i.val = false := by
          decide
        exact hall ⟨i, hi⟩ hlow
      rw [hmask, Bool.and_false, Bool.and_false]
  rw [heq, BitVec.toNat_and, BitVec.toNat_ushiftRight]
  rfl

theorem drainInt_eq (data : BitVec 32) {nbits : Nat} (h : nbits ≤ 32) :
    drainInt data nbits = drain data.toNat nbits := by
  induction nbits using Nat.strong_induction_on with
  | _ nbits ih =>
      rw [drainInt, drain]
      by_cases hsix : 6 ≤ nbits
      · rw [if_pos hsix, if_pos hsix]
        dsimp only
        rw [ih (nbits - 6) (by omega) (by omega), sshiftRight_and data (by omega)]
      · rw [if_neg hsix, if_neg hsix]

/-! ## The loops -/

theorem toNat_shiftLeft_or (data : BitVec 32) (c : UInt8) :
    (data <<< 8 ||| BitVec.ofNat 32 c.toNat).toNat = (data.toNat <<< 8 ||| c.toNat) % 2 ^ 32 := by
  have hc : c.toNat < 2 ^ 32 := c.toNat_lt.trans (by decide)
  rw [BitVec.toNat_or, BitVec.toNat_shiftLeft, BitVec.toNat_ofNat, Nat.or_mod_two_pow]

theorem encodeIntFrom_eq (s : Bytes) (data : BitVec 32) {nbits : Nat} (h : nbits < 6) :
    encodeIntFrom data nbits s = encodeFrom data.toNat nbits s := by
  induction s generalizing data nbits with
  | nil =>
      have hmask : (data <<< (6 - nbits) &&& 0x3f).toNat = data.toNat <<< (6 - nbits) &&& 0x3f := by
        rw [BitVec.toNat_and, BitVec.toNat_shiftLeft, show (0x3f : BitVec 32).toNat = 0x3f from rfl,
          and_mask, and_mask, Nat.mod_mod_of_dvd _ (by decide)]
      rw [encodeIntFrom, encodeFrom, hmask]
  | cons c s ih =>
      rw [encodeIntFrom, encodeFrom, drainInt_eq _ (by omega), toNat_shiftLeft_or, ih _ (by rw [left_drain]; omega),
        toNat_shiftLeft_or]

theorem encodeInt_eq (s : Bytes) : encodeInt s = encode s := by
  rw [encodeInt, encode, encodeIntFrom_eq s 0 (by decide)]
  rfl

/-- An accumulator of 32 bits agrees with itself before the reduction. -/
theorem Agree.mod {nbits data data' : Nat} (h : Agree nbits data data') (hn : nbits ≤ 32) :
    Agree nbits (data % 2 ^ 32) data' := by
  unfold Agree
  rw [Nat.mod_mod_of_dvd _ (Nat.pow_dvd_pow 2 hn), h]

theorem encodeFrom_unbounded (s : Bytes) {data data' nbits : Nat} (hn : nbits < 6)
    (h : Agree nbits data data') : encodeFrom data nbits s = encodeUnboundedFrom data' nbits s := by
  induction s generalizing data data' nbits with
  | nil =>
      have hshift : Agree (nbits + (6 - nbits)) (data * 2 ^ (6 - nbits) + 0) (data' * 2 ^ (6 - nbits) + 0) :=
        h.shift
      rw [show nbits + (6 - nbits) = 6 by omega] at hshift
      rw [encodeFrom, encodeUnboundedFrom, and_mask, and_mask, Nat.shiftLeft_eq, Nat.shiftLeft_eq]
      rw [show data * 2 ^ (6 - nbits) % 64 = data' * 2 ^ (6 - nbits) % 64 from hshift]
  | cons c s ih =>
      have hpushed : Agree (nbits + 8) ((data <<< 8 ||| c.toNat) % 2 ^ 32) (data' <<< 8 ||| c.toNat) := by
        rw [shiftLeft_or_byte, shiftLeft_or_byte]
        exact h.shift.mod (by omega)
      have hleft : Agree ((nbits + 8) % 6) ((data <<< 8 ||| c.toNat) % 2 ^ 32) (data' <<< 8 ||| c.toNat) :=
        hpushed.mono (Nat.mod_le _ _)
      rw [encodeFrom, encodeUnboundedFrom, drain_agree hpushed, left_drain, ih (Nat.mod_lt _ (by decide)) hleft]

theorem encode_unbounded (s : Bytes) : encode s = encodeUnbounded s := by
  rw [encode, encodeUnbounded, encodeFrom_unbounded s (by decide) rfl]

/-- The byte that ends with a digit. -/
theorem Agree.byte {left data data' : Nat} (h : Agree (left + 8) data data') :
    UInt8.ofNat (data >>> left) = UInt8.ofNat (data' >>> left) := by
  have hbits : ∀ n : Nat, n >>> left % 2 ^ 8 = n % 2 ^ (left + 8) / 2 ^ left := by
    intro n
    rw [Nat.shiftRight_eq_div_pow, Nat.pow_add, Nat.mod_mul_right_div_self]
  rw [← UInt8.toNat_inj, UInt8.toNat_ofNat', UInt8.toNat_ofNat', hbits, hbits, h]

theorem decodeFrom_unbounded (s : Bytes) {d d' bits : Nat} (hn : bits < 8) (h : Agree bits d d') :
    decodeFrom d bits s = decodeUnboundedFrom d' bits s := by
  induction s generalizing d d' bits with
  | nil => rfl
  | cons c s ih =>
      rw [decodeFrom, decodeUnboundedFrom]
      by_cases hpad : c = 61
      · rw [if_pos hpad, if_pos hpad]
      · rw [if_neg hpad, if_neg hpad]
        by_cases hnewline : c = 10
        · rw [if_pos hnewline, if_pos hnewline, ih hn h]
        · rw [if_neg hnewline, if_neg hnewline]
          cases hdigit : characters.idxOf? c with
          | none => rfl
          | some digit =>
              have hlt : digit < 64 := (List.idxOf?_eq_some_iff.mp hdigit).1
              have hpushed : Agree (bits + 6) ((d <<< 6 ||| digit) % 2 ^ 32) (d' <<< 6 ||| digit) := by
                rw [shiftLeft_or_digit d hlt, shiftLeft_or_digit d' hlt]
                exact h.shift.mod (by omega)
              dsimp only
              by_cases hbyte : bits + 6 ≥ 8
              · have hends : Agree (bits + 6 - 8 + 8) ((d <<< 6 ||| digit) % 2 ^ 32) (d' <<< 6 ||| digit) :=
                  hpushed.mono (by omega)
                rw [if_pos hbyte, if_pos hbyte, hends.byte, ih (by omega) (hpushed.mono (by omega))]
              · rw [if_neg hbyte, if_neg hbyte, ih (by omega) hpushed]

theorem decode_unbounded (s : Bytes) : decode s = decodeUnbounded s :=
  decodeFrom_unbounded s (by decide) rfl

/-! ## Length and padding -/

theorem length_encodeFrom (s : Bytes) (data : Nat) {nbits : Nat} (h : nbits < 6) :
    (encodeFrom data nbits s).length = (nbits + 8 * s.length + 5) / 6 := by
  induction s generalizing data nbits with
  | nil =>
      rw [encodeFrom]
      split
      · rw [List.length_singleton, List.length_nil]
        omega
      · rw [List.length_nil]
        omega
  | cons c s ih =>
      rw [encodeFrom, List.length_append, length_drain, left_drain, ih _ (Nat.mod_lt _ (by decide)),
        List.length_cons]
      omega

theorem length_encode (s : Bytes) : (encode s).length = encodedLength s.length := by
  have hdigits := length_encodeFrom s 0 (show 0 < 6 by decide)
  rw [encode, List.length_append, List.length_replicate, hdigits, encodedLength]
  omega

/-- Digits, and up to two signs of padding. -/
theorem encode_padding (s : Bytes) :
    ∃ digits n, encode s = digits ++ List.replicate n 61 ∧ n ≤ 2 ∧ ∀ c ∈ digits, c ∈ characters := by
  have hdigits := length_encodeFrom s 0 (show 0 < 6 by decide)
  refine ⟨encodeFrom 0 0 s, _, rfl, ?_, fun c hc => mem_encodeFrom hc⟩
  rw [hdigits]
  omega

/-- Any bytes read back from their encoding, with the accumulators of the code; it has
the length that was reserved, and accumulators without bound change nothing, in the
decoding of any text at all. -/
theorem decode_encodeInt (s : Bytes) :
    decode (encodeInt s) = .ok s ∧ (encodeInt s).length = encodedLength s.length ∧
    (∃ digits n, encodeInt s = digits ++ List.replicate n 61 ∧ n ≤ 2 ∧
      ∀ c ∈ digits, c ∈ characters) ∧
    encodeInt s = encodeUnbounded s ∧ ∀ t, decode t = decodeUnbounded t := by
  rw [encodeInt_eq]
  exact ⟨decode_encode s, length_encode s, encode_padding s, encode_unbounded s, decode_unbounded⟩

end Base64
end Util
end Archinix
