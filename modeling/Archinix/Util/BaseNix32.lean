import Archinix.Util.HashTextCanonical

/-!
# Nix32 with its 32-bit indices

`BaseNix32::encode` counts its digits with an `int` and `BaseNix32::decode` with an
`unsigned int`.  Both are what they are without bound as long as five times the count
fits: for encoding that is up to 2^28 bytes, for decoding up to 858993460 digits.
-/

namespace Archinix
namespace Util
namespace BaseNix32

/-- The loop body of `BaseNix32::encode`; none where `n * 5` is no `int`, or an index is
not in its buffer. -/
def encodeDigit (bs : Bytes) (n : Nat) : Option UInt8 :=
  if 2 ^ 31 ≤ n * 5 then none
  else
    let b := n * 5
    let i := b / 8
    let j := b % 8
    let high :=
      if i ≥ bs.length - 1 then some 0
      else (bs[i + 1]?).map fun byte => byte.toNat <<< (8 - j) % 256
    match bs[i]?, high with
    | some low, some high => characters[(low.toNat >>> j ||| high) &&& 0x1f]?
    | _, _ => none

/-- The rounds from `n - 1` down. -/
def encodeDown (bs : Bytes) : Nat → Option Bytes
  | 0 => some []
  | n + 1 => do
      let c ← encodeDigit bs n
      let rest ← encodeDown bs n
      return c :: rest

/-- `BaseNix32::encode`: the length is cast to an `int`. -/
def encodeInt (bs : Bytes) : Option Bytes :=
  if bs = [] then some []
  else
    let len := (BitVec.ofNat 32 (encodedLength bs.length)).toInt
    if len - 1 < -2 ^ 31 then none else encodeDown bs len.toNat

/-- The loop body of `BaseNix32::decode`; none where an index is not in its buffer. -/
def placeUInt (res : Bytes) (n digit : Nat) : Option Bytes :=
  let b := n * 5 % 2 ^ 32
  let i := b / 8
  let j := b % 8
  let res := resize res (i + 1)
  if i < res.length then
    let res := res.modify i (· ||| UInt8.ofNat (digit <<< j))
    if digit >>> (8 - j) ≠ 0 then
      let res := resize res (i + 2)
      if i + 1 < res.length then
        some (res.modify (i + 1) (· ||| UInt8.ofNat (digit >>> (8 - j))))
      else none
    else some res
  else none

inductive Outcome where
  | running
  /-- An index is not in its buffer. -/
  | undefined
  | thrown (e : Error)
  | returned (res : Bytes)

/-- The loop of `BaseNix32::decode`, for some rounds. -/
def decodeLoop (s : Bytes) : Nat → Nat → Bytes → Outcome
  | 0, _, _ => .running
  | rounds + 1, n, res =>
      if n < s.length then
        match s[s.length - n - 1]? with
        | none => .undefined
        | some c =>
            match lookupReverse c with
            | none => .thrown (formatError
                "invalid character in Nix32 (Nix's Base32 variation) string: '%c'" [[c]])
            | some digit =>
                match placeUInt res n digit with
                | none => .undefined
                | some res => decodeLoop s rounds ((n + 1) % 2 ^ 32) res
      else .returned res

/-- `BaseNix32::decode` returns. -/
def Decodes (s res : Bytes) : Prop := ∃ rounds, decodeLoop s rounds 0 [] = .returned res

/-- A count and a buffer that the loop of `BaseNix32::decode` comes to. -/
inductive Reached (s : Bytes) : Nat → Bytes → Prop
  | start : Reached s 0 []
  | round {n : Nat} {res res' : Bytes} {c : UInt8} {digit : Nat} (h : Reached s n res)
      (hn : n < s.length) (hc : s[s.length - n - 1]? = some c)
      (hdigit : lookupReverse c = some digit) (hres : placeUInt res n digit = some res') :
      Reached s ((n + 1) % 2 ^ 32) res'

/-- No `resize` drops what was written: the first of a round only lengthens (the second
always does). -/
def KeepsBytes (s : Bytes) : Prop :=
  ∀ n res c digit, Reached s n res → n < s.length → s[s.length - n - 1]? = some c →
    lookupReverse c = some digit → res.length ≤ n * 5 % 2 ^ 32 / 8 + 1

/-- The digits of a text up to the first character that is none. -/
def digitsOf : Bytes → List Nat
  | [] => []
  | c :: rest =>
      match lookupReverse c with
      | some digit => digit :: digitsOf rest
      | none => []

/-- The rounds for which five times the count is an `unsigned int`. -/
def roundsBeforeWrap : Nat := 858993460

/-! ## Encoding -/

theorem encodeDigit_eq {bs : Bytes} {n : Nat} (hint : n * 5 < 2 ^ 31) (hn : n * 5 / 8 < bs.length) :
    encodeDigit bs n = some (characters.getD (digit bs n) 0) := by
  have hlow : bs[n * 5 / 8]? = some (bs.getD (n * 5 / 8) 0) := by
    rw [List.getElem?_eq_getElem hn, List.getD_eq_getElem _ _ hn]
  have hhigh : (if n * 5 / 8 ≥ bs.length - 1 then some 0
      else (bs[n * 5 / 8 + 1]?).map fun byte => byte.toNat <<< (8 - n * 5 % 8) % 256) =
      some (if n * 5 / 8 + 1 ≥ bs.length then 0
        else (bs.getD (n * 5 / 8 + 1) 0).toNat <<< (8 - n * 5 % 8) % 256) := by
    by_cases hlast : n * 5 / 8 + 1 ≥ bs.length
    · rw [if_pos (by omega), if_pos hlast]
    · have hnext : n * 5 / 8 + 1 < bs.length := by omega
      rw [if_neg (by omega), if_neg hlast, List.getElem?_eq_getElem hnext,
        List.getD_eq_getElem _ _ hnext, Option.map_some]
  have hchar : ∀ m, characters[m % 32]? = some (characters.getD (m % 32) 0) := by
    intro m
    have hm : m % 32 < characters.length := Nat.mod_lt _ (by decide)
    rw [List.getElem?_eq_getElem hm, List.getD_eq_getElem _ _ hm]
  have hmask : ∀ m : Nat, m &&& 0x1f = m % 32 := fun m => Nat.and_two_pow_sub_one_eq_mod m 5
  rw [encodeDigit, if_neg (by omega)]
  simp only [hlow, hhigh, hmask, hchar]
  rfl

theorem encodeDown_eq {bs : Bytes} (m : Nat)
    (h : ∀ n < m, n * 5 < 2 ^ 31 ∧ n * 5 / 8 < bs.length) :
    encodeDown bs m = some ((List.range m).reverse.map fun n => characters.getD (digit bs n) 0) := by
  induction m with
  | zero => rfl
  | succ m ih =>
      have hrest := ih fun n hn => h n (by omega)
      obtain ⟨hint, hm⟩ := h m (Nat.lt_succ_self m)
      rw [encodeDown, encodeDigit_eq hint hm, hrest, List.range_succ, List.reverse_append]
      rfl

theorem length_encodeDown {bs s : Bytes} {m : Nat} (h : encodeDown bs m = some s) :
    s.length = m ∧ ∀ n < m, n * 5 < 2 ^ 31 := by
  induction m generalizing s with
  | zero =>
      cases h
      exact ⟨rfl, fun n hn => absurd hn (Nat.not_lt_zero n)⟩
  | succ m ih =>
      simp only [encodeDown, Option.bind_eq_bind, Option.bind_eq_some_iff] at h
      obtain ⟨c, hc, rest, hrest, heq⟩ := h
      cases heq
      obtain ⟨hlen, hall⟩ := ih hrest
      have hm : m * 5 < 2 ^ 31 := by
        by_contra hbig
        rw [encodeDigit, if_pos (by omega)] at hc
        cases hc
      refine ⟨by rw [List.length_cons, hlen], fun n hn => ?_⟩
      rcases Nat.lt_succ_iff_lt_or_eq.mp hn with hlt | rfl
      · exact hall n hlt
      · exact hm

/-- Up to 2^28 bytes the casts and products change nothing. -/
theorem encodeInt_eq {bs : Bytes} (h : bs.length ≤ 2 ^ 28) : encodeInt bs = some (encode bs) := by
  by_cases hnil : bs = []
  · rw [hnil]
    rfl
  · have hpos := List.length_pos_of_ne_nil hnil
    have hlen : encodedLength bs.length < 2 ^ 31 := by
      unfold encodedLength
      omega
    have hint : (BitVec.ofNat 32 (encodedLength bs.length)).toInt = encodedLength bs.length := by
      have hnat : (BitVec.ofNat 32 (encodedLength bs.length)).toNat = encodedLength bs.length := by
        rw [BitVec.toNat_ofNat, Nat.mod_eq_of_lt (by omega)]
      rw [BitVec.toInt_eq_toNat_of_lt (by omega), hnat]
    rw [encodeInt, if_neg hnil]
    dsimp only
    rw [hint, if_neg (by omega), Int.toNat_natCast, encode, if_neg hnil]
    apply encodeDown_eq
    intro n hn
    unfold encodedLength at hn
    omega

/-- Beyond, what is returned if anything is too short. -/
theorem le_of_encodeInt {bs s : Bytes} (h : encodeInt bs = some s)
    (hlen : s.length = if bs = [] then 0 else encodedLength bs.length) : bs.length ≤ 2 ^ 28 := by
  by_cases hnil : bs = []
  · rw [hnil]
    exact Nat.zero_le _
  · rw [encodeInt, if_neg hnil] at h
    rw [if_neg hnil] at hlen
    dsimp only at h
    split at h
    · cases h
    · obtain ⟨hcount, hall⟩ := length_encodeDown h
      rw [hlen] at hcount
      have hpos : 0 < encodedLength bs.length := Nat.succ_pos _
      have hlast := hall (encodedLength bs.length - 1) (by omega)
      unfold encodedLength at hlast
      omega

/-! ## The digits of a text -/

theorem digitsOf_digit {c : UInt8} {digit : Nat} (h : lookupReverse c = some digit) (rest : Bytes) :
    digitsOf (c :: rest) = digit :: digitsOf rest := by
  show (match lookupReverse c with | some digit => digit :: digitsOf rest | none => []) = _
  rw [h]

theorem digitsOf_other {c : UInt8} (h : lookupReverse c = none) (rest : Bytes) :
    digitsOf (c :: rest) = [] := by
  show (match lookupReverse c with | some digit => digit :: digitsOf rest | none => []) = _
  rw [h]

theorem digitsOf_lt (cs : Bytes) : ∀ d ∈ digitsOf cs, d < 32 := by
  induction cs with
  | nil => exact fun d hd => absurd hd List.not_mem_nil
  | cons c cs ih =>
      intro d hd
      cases hlookup : lookupReverse c with
      | none =>
          rw [digitsOf_other hlookup] at hd
          cases hd
      | some digit =>
          rw [digitsOf_digit hlookup] at hd
          rcases List.mem_cons.mp hd with rfl | hrest
          · exact (lookupReverse_eq_some hlookup).1
          · exact ih d hrest

theorem length_digitsOf_le (cs : Bytes) : (digitsOf cs).length ≤ cs.length := by
  induction cs with
  | nil => exact Nat.le_refl 0
  | cons c cs ih =>
      cases hlookup : lookupReverse c with
      | none =>
          rw [digitsOf_other hlookup]
          exact Nat.zero_le _
      | some digit =>
          rw [digitsOf_digit hlookup]
          exact Nat.succ_le_succ ih

theorem getElem?_digitsOf {cs : Bytes} {n : Nat} (hn : n < (digitsOf cs).length) :
    ∃ c, cs[n]? = some c ∧ lookupReverse c = some (digitsOf cs)[n] := by
  induction cs generalizing n with
  | nil => exact absurd hn (Nat.not_lt_zero n)
  | cons c cs ih =>
      cases hlookup : lookupReverse c with
      | none => simp [digitsOf_other hlookup] at hn
      | some digit =>
          simp only [digitsOf_digit hlookup, List.length_cons] at hn ⊢
          cases n with
          | zero => exact ⟨c, rfl, hlookup⟩
          | succ n =>
              obtain ⟨c', hc', hdigit⟩ := ih (show n < (digitsOf cs).length by omega)
              refine ⟨c', ?_, ?_⟩
              · rw [List.getElem?_cons_succ, hc']
              · rw [List.getElem_cons_succ, hdigit]

/-- A digit that follows digits only is one more. -/
theorem lt_length_digitsOf {cs : Bytes} {n digit : Nat} {c : UInt8}
    (hn : n ≤ (digitsOf cs).length) (hc : cs[n]? = some c) (hdigit : lookupReverse c = some digit) :
    n < (digitsOf cs).length := by
  induction cs generalizing n with
  | nil => cases hc
  | cons c' cs ih =>
      cases hlookup : lookupReverse c' with
      | none =>
          simp only [digitsOf_other hlookup, List.length_nil, Nat.le_zero] at hn
          rw [hn, List.getElem?_cons_zero] at hc
          cases hc
          rw [hlookup] at hdigit
          cases hdigit
      | some first =>
          simp only [digitsOf_digit hlookup, List.length_cons] at hn ⊢
          cases n with
          | zero => exact Nat.succ_pos _
          | succ n => exact Nat.succ_lt_succ (ih (Nat.le_of_succ_le_succ hn) hc)

/-- The digits of what digits are written as. -/
theorem digitsOf_map {digits : List Nat} (h : ∀ d ∈ digits, d < 32) :
    digitsOf (digits.map (characters.getD · 0)) = digits := by
  induction digits with
  | nil => rfl
  | cons d digits ih =>
      have hchar := lookupReverse_characters ⟨d, h d List.mem_cons_self⟩
      rw [List.map_cons, digitsOf_digit hchar, ih fun d' hd' => h d' (List.mem_cons_of_mem d hd')]

theorem map_digitsOf {cs : Bytes} (h : (digitsOf cs).length = cs.length) :
    (digitsOf cs).map (characters.getD · 0) = cs := by
  refine List.ext_getElem (by rw [List.length_map, h]) fun n hn hn' => ?_
  rw [List.length_map] at hn
  obtain ⟨c, hc, hdigit⟩ := getElem?_digitsOf hn
  rw [List.getElem?_eq_getElem hn'] at hc
  cases hc
  rw [List.getElem_map]
  exact (lookupReverse_eq_some hdigit).2

/-! ## Decoding -/

/-- Every index is in its buffer. -/
theorem placeUInt_isSome (res : Bytes) (n digit : Nat) : (placeUInt res n digit).isSome := by
  unfold placeUInt
  simp only [length_resize]
  rw [if_pos (by omega)]
  split
  · rw [if_pos (by omega)]
    rfl
  · rfl

theorem placeUInt_eq {n : Nat} (h : n < roundsBeforeWrap) (res : Bytes) (digit : Nat) :
    placeUInt res n digit = some (place res n digit) := by
  have hb : n * 5 % 2 ^ 32 = n * 5 := by
    unfold roundsBeforeWrap at h
    omega
  unfold placeUInt place
  simp only [hb, length_resize]
  rw [if_pos (by omega)]
  split
  · rw [if_pos (by omega)]
  · rfl

theorem length_placeUInt {res res' : Bytes} {n digit : Nat} (h : placeUInt res n digit = some res') :
    res'.length ≤ n * 5 % 2 ^ 32 / 8 + 2 := by
  unfold placeUInt at h
  simp only [length_resize] at h
  rw [if_pos (by omega)] at h
  split at h
  · rw [if_pos (by omega)] at h
    cases h
    rw [List.length_modify, length_resize]
  · cases h
    rw [List.length_modify, length_resize]
    omega

/-- After a round the buffer ends with the byte of the last bit. -/
theorem length_place (res : Bytes) (n : Nat) {d : Nat} (hd : d < 32) :
    n * 5 / 8 + 1 ≤ (place res n d).length ∧ (place res n d).length ≤ (n + 1) * 5 / 8 + 1 := by
  rw [place]
  split
  · rename_i hcarry
    rw [List.length_modify, length_resize]
    have hj : 4 ≤ n * 5 % 8 := by
      by_contra hlow
      apply hcarry
      rw [Nat.shiftRight_eq_div_pow, Nat.div_eq_of_lt]
      have hpow : 2 ^ 5 ≤ 2 ^ (8 - n * 5 % 8) := Nat.pow_le_pow_right (by decide) (by omega)
      omega
    omega
  · rw [List.length_modify, length_resize]
    omega

theorem getElem?_reverse_end (s : Bytes) {n : Nat} (hn : n < s.length) :
    s[s.length - n - 1]? = s.reverse[n]? := by
  rw [List.getElem?_reverse hn, Nat.sub_right_comm]

/-- The loop runs to what is reached. -/
theorem decodeLoop_reached {s res : Bytes} {n : Nat} (h : Reached s n res) :
    ∃ rounds, ∀ more, decodeLoop s (more + rounds) 0 [] = decodeLoop s more n res := by
  induction h with
  | start => exact ⟨0, fun more => rfl⟩
  | round h hn hc hdigit hres ih =>
      obtain ⟨rounds, hrun⟩ := ih
      refine ⟨rounds + 1, fun more => ?_⟩
      rw [Nat.add_comm rounds, ← Nat.add_assoc, hrun, decodeLoop, if_pos hn, hc]
      dsimp only
      rw [hdigit]
      dsimp only
      rw [hres]

/-- What is returned was reached, and the text is at its end. -/
theorem reached_of_returned {s res r : Bytes} {rounds n : Nat} (h : Reached s n res)
    (hrun : decodeLoop s rounds n res = .returned r) : ∃ m, Reached s m r ∧ s.length ≤ m := by
  induction rounds generalizing n res with
  | zero => cases hrun
  | succ rounds ih =>
      rw [decodeLoop] at hrun
      split at hrun
      · rename_i hn
        cases hc : s[s.length - n - 1]? with
        | none =>
            rw [hc] at hrun
            cases hrun
        | some c =>
            cases hdigit : lookupReverse c with
            | none => simp [hc, hdigit] at hrun
            | some digit =>
                cases hres : placeUInt res n digit with
                | none => simp [hc, hdigit, hres] at hrun
                | some res' =>
                    simp only [hc, hdigit, hres] at hrun
                    exact ih (h.round hn hc hdigit hres) hrun
      · rename_i hn
        cases hrun
        exact ⟨n, h, Nat.not_lt.mp hn⟩

/-- No index is outside its buffer, in any number of rounds. -/
theorem decodeLoop_ne_undefined (s : Bytes) (rounds n : Nat) (res : Bytes) :
    decodeLoop s rounds n res ≠ .undefined := by
  induction rounds generalizing n res with
  | zero => exact Outcome.noConfusion
  | succ rounds ih =>
      rw [decodeLoop]
      split
      · rename_i hn
        rw [List.getElem?_eq_getElem (by omega)]
        dsimp only
        cases lookupReverse _ with
        | none => exact Outcome.noConfusion
        | some digit =>
            obtain ⟨res', hres⟩ := Option.isSome_iff_exists.mp (placeUInt_isSome res n digit)
            dsimp only
            rw [hres]
            exact ih _ _
      · exact Outcome.noConfusion

theorem placeAll_take_succ {digits : List Nat} {n : Nat} (hn : n < digits.length) :
    placeAll (digits.take (n + 1)) = place (placeAll (digits.take n)) n digits[n] := by
  rw [List.take_succ_eq_append_getElem hn, placeAll_concat, List.length_take_of_le (by omega)]

/-- As long as five times the count fits, the digits are placed one after the other. -/
theorem reached_take {s : Bytes} {n : Nat} (hn : n ≤ (digitsOf s.reverse).length)
    (hwrap : n ≤ roundsBeforeWrap) : Reached s n (placeAll ((digitsOf s.reverse).take n)) := by
  induction n with
  | zero => exact Reached.start
  | succ n ih =>
      obtain ⟨c, hc, hdigit⟩ := getElem?_digitsOf hn
      have hlen := length_digitsOf_le s.reverse
      rw [List.length_reverse] at hlen
      have hc' : s[s.length - n - 1]? = some c := by rw [getElem?_reverse_end s (by omega), hc]
      have hstep := (ih (by omega) (by omega)).round (by omega) hc' hdigit
        (placeUInt_eq (by omega) _ _)
      rw [placeAll_take_succ hn]
      rwa [Nat.mod_eq_of_lt (by unfold roundsBeforeWrap at hwrap; omega)] at hstep

/-- And nothing else is reached where no more digits are there. -/
theorem Reached.eq_take {s res : Bytes} {n : Nat}
    (hall : (digitsOf s.reverse).length ≤ roundsBeforeWrap) (h : Reached s n res) :
    n ≤ (digitsOf s.reverse).length ∧ res = placeAll ((digitsOf s.reverse).take n) := by
  induction h with
  | start => exact ⟨Nat.zero_le _, rfl⟩
  | @round n res res' c digit h hn hc hdigit hres ih =>
      obtain ⟨hle, hres'⟩ := ih
      rw [getElem?_reverse_end s hn] at hc
      have hlt := lt_length_digitsOf hle hc hdigit
      obtain ⟨c', hc', hdigit'⟩ := getElem?_digitsOf hlt
      rw [hc] at hc'
      cases hc'
      rw [hdigit] at hdigit'
      cases hdigit'
      rw [placeUInt_eq (by omega)] at hres
      rw [Nat.mod_eq_of_lt (by unfold roundsBeforeWrap at hall; omega)]
      refine ⟨hlt, ?_⟩
      rw [placeAll_take_succ hlt, ← hres']
      exact (Option.some.inj hres).symm

/-- The last round bounds the buffer. -/
theorem Reached.length_le {s res : Bytes} {n : Nat} (h : Reached s n res) :
    n = 0 ∧ res = [] ∨
      ∃ m < s.length, n = (m + 1) % 2 ^ 32 ∧ m < 2 ^ 32 ∧ res.length ≤ m * 5 % 2 ^ 32 / 8 + 2 := by
  induction h with
  | start => exact Or.inl ⟨rfl, rfl⟩
  | @round n res res' c digit h hn hc hdigit hres ih =>
      refine Or.inr ⟨n, hn, rfl, ?_, length_placeUInt hres⟩
      rcases ih with ⟨hzero, -⟩ | ⟨m, -, hm, -⟩ <;> omega

/-- Digits that are not too many are decoded. -/
theorem decodes_digitsOf {s : Bytes} (hall : (digitsOf s.reverse).length = s.length)
    (hlen : s.length ≤ roundsBeforeWrap) : Decodes s (placeAll (digitsOf s.reverse)) := by
  have hreached := reached_take (Nat.le_refl (digitsOf s.reverse).length) (by omega)
  rw [List.take_length, hall] at hreached
  obtain ⟨rounds, hrun⟩ := decodeLoop_reached hreached
  refine ⟨1 + rounds, ?_⟩
  rw [hrun, decodeLoop, if_neg (Nat.lt_irrefl _)]

theorem eq_of_decodes {s res : Bytes} (hlen : s.length ≤ roundsBeforeWrap) (h : Decodes s res) :
    (digitsOf s.reverse).length = s.length ∧ res = placeAll (digitsOf s.reverse) := by
  obtain ⟨rounds, hrun⟩ := h
  obtain ⟨m, hreached, hm⟩ := reached_of_returned Reached.start hrun
  have hle := length_digitsOf_le s.reverse
  rw [List.length_reverse] at hle
  obtain ⟨hm', hres⟩ := hreached.eq_take (by omega)
  refine ⟨by omega, ?_⟩
  rw [hres, List.take_of_length_le (by omega)]

/-- A text with the length of what it gives encoded is not too long: the bits of a longer
one do not fit. -/
theorem length_of_decodes {s res : Bytes} (h : Decodes s res) (hne : res ≠ [])
    (hlen : s.length = encodedLength res.length) : s.length ≤ roundsBeforeWrap := by
  obtain ⟨rounds, hrun⟩ := h
  obtain ⟨n, hreached, hn⟩ := reached_of_returned Reached.start hrun
  rcases hreached.length_le with ⟨-, hnil⟩ | ⟨m, hm, heq, hm', hbound⟩
  · exact absurd hnil hne
  · have hlast : m + 1 = s.length := by omega
    have hbits : m * 5 < res.length * 8 := by
      have hpos := List.length_pos_of_ne_nil hne
      unfold encodedLength at hlen
      omega
    -- what the product loses by wrapping is more than a round adds
    have hfits : m * 5 / 2 ^ 32 = 0 := by
      have hsplit := Nat.div_add_mod (m * 5) (2 ^ 32)
      omega
    have hsmall := Nat.lt_of_div_eq_zero (by decide) hfits
    unfold roundsBeforeWrap
    omega

theorem keepsBytes_iff (s : Bytes) :
    KeepsBytes s ↔ (digitsOf s.reverse).length ≤ roundsBeforeWrap := by
  constructor
  · intro hkeeps
    by_contra hmore
    -- the product wraps to 4: the buffer is cut to one byte
    have hwrap : roundsBeforeWrap < (digitsOf s.reverse).length := by omega
    have hlen := length_digitsOf_le s.reverse
    rw [List.length_reverse] at hlen
    obtain ⟨c, hc, hdigit⟩ := getElem?_digitsOf hwrap
    have hc' : s[s.length - roundsBeforeWrap - 1]? = some c := by
      rw [getElem?_reverse_end s (by omega), hc]
    have hcut := hkeeps _ _ c _ (reached_take (by omega) (Nat.le_refl _)) (by omega) hc' hdigit
    have hprev : roundsBeforeWrap - 1 < (digitsOf s.reverse).length := by omega
    have hlong := length_place (placeAll ((digitsOf s.reverse).take (roundsBeforeWrap - 1)))
      (roundsBeforeWrap - 1) (digitsOf_lt _ _ (List.getElem_mem hprev))
    rw [← placeAll_take_succ hprev, show roundsBeforeWrap - 1 + 1 = roundsBeforeWrap from rfl] at hlong
    unfold roundsBeforeWrap at hcut hlong
    omega
  · intro hall n res c digit hreached hn hc hdigit
    obtain ⟨hle, hres⟩ := hreached.eq_take hall
    rw [getElem?_reverse_end s hn] at hc
    have hlt := lt_length_digitsOf hle hc hdigit
    have hmod : n * 5 % 2 ^ 32 = n * 5 := by
      unfold roundsBeforeWrap at hall
      omega
    rw [hmod, hres]
    cases n with
    | zero => exact Nat.zero_le _
    | succ n =>
        have hn' : n < (digitsOf s.reverse).length := by omega
        rw [placeAll_take_succ hn']
        exact (length_place _ n (digitsOf_lt _ _ (List.getElem_mem hn'))).2

/-- Decoding gives the bytes of an encoding, and nothing else. -/
theorem decodes_encode {bs : Bytes} (h : bs.length ≤ 2 ^ 28) (res : Bytes) :
    Decodes (encode bs) res ↔ res = bs := by
  have hlen : (encode bs).length ≤ roundsBeforeWrap := by
    by_cases hnil : bs = []
    · rw [hnil]
      exact Nat.zero_le _
    · rw [length_encode hnil]
      unfold encodedLength roundsBeforeWrap
      omega
  obtain ⟨digits, hdigits, htext, hbs⟩ := foldlM_place (decode_encode bs)
  have hdigitsOf : digitsOf (encode bs).reverse = digits := by rw [htext, digitsOf_map hdigits]
  have hcount : digits.length = (encode bs).length := by
    rw [← @List.length_reverse _ (encode bs), htext, List.length_map]
  constructor
  · intro hdecodes
    rw [(eq_of_decodes hlen hdecodes).2, hdigitsOf, ← hbs]
  · rintro rfl
    have hdecodes := decodes_digitsOf (by rw [hdigitsOf, hcount]) hlen
    rwa [hdigitsOf, ← hbs] at hdecodes

/-- A text of the right length is the encoding of what it decodes to. -/
theorem encode_of_decodes {s res : Bytes} (h : Decodes s res) (hne : res ≠ [])
    (hlen : s.length = encodedLength res.length) : encode res = s := by
  have hshort := length_of_decodes h hne hlen
  obtain ⟨hall, rfl⟩ := eq_of_decodes hshort h
  rw [encode_placeAll (digitsOf_lt _) hne (by rw [hall, hlen]),
    map_digitsOf (by rw [hall, List.length_reverse]), List.reverse_reverse]

/-- When Nix32 is a bijection onto the texts of the right length: up to 2^28 bytes.  No
`resize` of a decoding drops a byte if and only if there are not too many digits, and
no index is ever outside its buffer. -/
theorem nix32_bijection_iff (bs s : Bytes) :
    ((∃ text, encodeInt bs = some text ∧
        text.length = (if bs = [] then 0 else encodedLength bs.length) ∧
        ∀ res, Decodes text res ↔ res = bs) ↔ bs.length ≤ 2 ^ 28) ∧
    (∀ res, Decodes s res → res ≠ [] → s.length = encodedLength res.length →
      (encodeInt res = some s ↔ res.length ≤ 2 ^ 28)) ∧
    (KeepsBytes s ↔ (digitsOf s.reverse).length ≤ roundsBeforeWrap) ∧
    ∀ rounds, decodeLoop s rounds 0 [] ≠ .undefined := by
  refine ⟨⟨?_, ?_⟩, ?_, keepsBytes_iff s, fun rounds => decodeLoop_ne_undefined s rounds 0 []⟩
  · rintro ⟨text, htext, hlen, -⟩
    exact le_of_encodeInt htext hlen
  · intro hbs
    refine ⟨encode bs, encodeInt_eq hbs, ?_, decodes_encode hbs⟩
    split
    · rename_i hnil
      rw [hnil]
      rfl
    · rename_i hne
      exact length_encode hne
  · intro res hdecodes hne hlen
    constructor
    · intro hencode
      exact le_of_encodeInt hencode (by rw [if_neg hne, hlen])
    · intro hres
      rw [encodeInt_eq hres, encode_of_decodes hdecodes hne hlen]

/-- The text `01`. -/
theorem nix32_bijection_one : encodeInt [1] = some (str "01") ↔ [(1 : UInt8)].length ≤ 2 ^ 28 :=
  (nix32_bijection_iff [] (str "01")).2.1 [1] ⟨3, rfl⟩ (by decide) (by decide)

/-- 1342177281 bytes take 2^31 + 2 digits, which is no `int`: they are encoded as the
empty text. -/
theorem encodeInt_too_long :
    encodeInt (List.replicate 1342177281 0) = some [] ∧
    encodedLength (List.replicate 1342177281 (0 : UInt8)).length = 2147483650 ∧
    ¬ Decodes [] (List.replicate 1342177281 0) := by
  have hne : List.replicate 1342177281 (0 : UInt8) ≠ [] := by
    intro hnil
    have hzero := congrArg List.length hnil
    rw [List.length_replicate] at hzero
    cases hzero
  have hlen : encodedLength (List.replicate 1342177281 (0 : UInt8)).length = 2147483650 := by
    rw [List.length_replicate]
    rfl
  refine ⟨?_, hlen, ?_⟩
  · rw [encodeInt, if_neg hne, hlen]
    rfl
  · rintro ⟨rounds, hrun⟩
    cases rounds with
    | zero => cases hrun
    | succ rounds =>
        exact hne (Outcome.returned.inj hrun).symm

end BaseNix32
end Util
end Archinix
