import Archinix.Foundation.TransitionSystem
import Archinix.Util.Serialise

/-!
# Descriptor sources

`FdSource`: a buffer in front of a descriptor.  `skip` discards what is buffered, then
seeks if the descriptor can, and reads otherwise.  A seek beyond the end of a file is
no error: `skip_iff` says in which states skipping is what reading and discarding is.
-/

namespace Archinix
namespace Util

open Foundation

/-- What a descriptor gives, from where it stood at first. -/
structure Descriptor where
  bytes : Bytes
  seekable : Bool
  /-- The largest offset that `lseek` accepts. -/
  maxOffset : Nat
  maxOffset_lt : maxOffset < 2 ^ 63
  length_le : seekable = true → bytes.length ≤ maxOffset

structure FdSource where
  /-- The offset of the descriptor. -/
  offset : Nat
  buffer : Option Bytes
  bufPosIn : Nat
  bufPosOut : Nat
  read : Nat
  isSeekable : Bool
  deriving DecidableEq

namespace FdSource

def start : FdSource := ⟨0, none, 0, 0, 0, true⟩

def endOfFileError : Error := ⟨.endOfFile, "unexpected end-of-file", []⟩

/-- `read(2)`: up to `len` bytes, but as few as the kernel chooses, at least one. -/
def kernelRead (d : Descriptor) (count len offset : Nat) : Bytes :=
  (d.bytes.drop offset).take (min len (count + 1))

section Operations

variable (d : Descriptor) (bufSize : Nat)

/-- `FdSource::readUnbuffered` into an empty buffer. -/
def refill (count : Nat) (s : FdSource) : Except Error Unit × FdSource :=
  let buffer := s.buffer.getD (List.replicate bufSize 0)
  let s := { s with buffer := some buffer }
  if s.bufPosIn = 0 then
    let chunk := kernelRead d count bufSize s.offset
    if chunk.length = 0 then (.error endOfFileError, s)
    else
      (.ok (), { s with
        offset := s.offset + chunk.length
        read := s.read + chunk.length
        buffer := some (chunk ++ buffer.drop chunk.length)
        bufPosIn := chunk.length })
  else (.ok (), s)

/-- `BufferedSource::read`. -/
def bufferedRead (count len : Nat) (s : FdSource) : Except Error Bytes × FdSource :=
  match refill d bufSize count s with
  | (.error e, s) => (.error e, s)
  | (.ok (), s) =>
      let n := min len (s.bufPosIn - s.bufPosOut)
      let data := ((s.buffer.getD []).drop s.bufPosOut).take n
      let s := { s with bufPosOut := s.bufPosOut + n }
      (.ok data, if s.bufPosIn = s.bufPosOut then { s with bufPosIn := 0, bufPosOut := 0 } else s)

/-- `Source::skip`: read and discard. -/
def sourceSkip : Nat → (Nat → Nat) → Nat → FdSource → Option (Except Error Unit × FdSource)
  | 0, _, _, _ => none
  | rounds + 1, counts, len, s =>
      if len = 0 then some (.ok (), s)
      else
        match bufferedRead d bufSize (counts 0) (min len 8192) s with
        | (.error e, s) => some (.error e, s)
        | (.ok data, s) => sourceSkip rounds (fun i => counts (i + 1)) (len - data.length) s

/-- What `skip` discards of the buffer, and how much it still has to skip. -/
def discardBuffered (len : Nat) (s : FdSource) : Nat × FdSource :=
  if len ≠ 0 ∧ s.buffer.isSome ∧ s.bufPosIn - s.bufPosOut ≠ 0 then
    if len ≥ s.bufPosIn - s.bufPosOut then
      (len - (s.bufPosIn - s.bufPosOut), { s with bufPosIn := 0, bufPosOut := 0 })
    else (0, { s with bufPosOut := s.bufPosOut + len })
  else (len, s)

/-- `FdSource::skip`. -/
def skip (rounds : Nat) (counts : Nat → Nat) (len : Nat) (s : FdSource) :
    Option (Except Error Unit × FdSource) :=
  let (len, s) := discardBuffered len s
  if s.isSeekable ∧ len ≠ 0 then
    if len > 2 ^ 63 - 1 then
      some (.error ⟨.error, "cannot skip %d bytes: exceeds maximum file offset", [natStr len]⟩, s)
    else if d.seekable then
      if d.maxOffset < s.offset + len then some (.error ⟨.error, "seeking forward in file", []⟩, s)
      else some (.ok (), { s with offset := s.offset + len, read := s.read + len })
    else sourceSkip d bufSize rounds counts len { s with isSeekable := false }
  else if len ≠ 0 then sourceSkip d bufSize rounds counts len s
  else some (.ok (), s)

end Operations

/-! ## Positions -/

def buffered (s : FdSource) : Nat := s.bufPosIn - s.bufPosOut

/-- What is in the buffer and not read yet. -/
def pending (s : FdSource) : Bytes := ((s.buffer.getD []).drop s.bufPosOut).take s.buffered

/-- How much has been read or skipped. -/
def position (s : FdSource) : Nat := s.offset - s.buffered

/-- What is still to be read. -/
def upcoming (d : Descriptor) (s : FdSource) : Bytes := s.pending ++ d.bytes.drop s.offset

/-- The indices of the buffer, and what is in it. -/
structure Inv (d : Descriptor) (s : FdSource) : Prop where
  order : s.bufPosOut ≤ s.bufPosIn
  reset : s.bufPosIn = s.bufPosOut → s.bufPosIn = 0
  allocated : s.bufPosIn ≠ 0 → s.buffer.isSome
  length_pending : s.pending.length = s.buffered
  behind : s.buffered ≤ s.offset
  counter : s.read = s.offset
  upcoming_eq : s.upcoming d = d.bytes.drop s.position

/-- Calls from outside, with the byte counts of the kernel. -/
inductive Call where
  | read (len count : Nat)
  | skip (len : Nat) (counts : Nat → Nat)

/-- Any calls in any order. -/
def calls (d : Descriptor) (bufSize : Nat) : TransitionSystem FdSource Call where
  init s := s = start
  step s call t :=
    match call with
    | .read len count => (bufferedRead d bufSize count len s).2 = t
    | .skip len counts => ∃ rounds r, skip d bufSize rounds counts len s = some (r, t)

/-- Skipping does what reading and discarding does, however many bytes the kernel gives at
a time: the same is left to read, at the same position and with the same counter, and
the end of the file is reported just if fewer bytes remain. -/
def SameAsReading (d : Descriptor) (bufSize : Nat) (s : FdSource) (len : Nat) : Prop :=
  ∀ counts counts', ∀ rounds > len, ∃ r s₁ s₂,
    skip d bufSize rounds counts len s = some (r, s₁) ∧
    sourceSkip d bufSize rounds counts' len s = some (r, s₂) ∧
    s₁.upcoming d = s₂.upcoming d ∧ s₁.position = s₂.position ∧
    s₁.read - s₁.buffered = s₂.read - s₂.buffered ∧
    (r = .ok () ∨ r = .error endOfFileError) ∧
    (r = .error endOfFileError ↔ (s.upcoming d).length < len)

/-- Nothing is sought beyond the end: the buffer has enough, or the source does not seek, or
what is left to skip is there (and a descriptor that turns out not to be seekable is
not asked for an offset that is none). -/
def SkipsWithin (d : Descriptor) (s : FdSource) (len : Nat) : Prop :=
  len ≤ s.buffered ∨ s.isSeekable = false ∨
    if d.seekable then len - s.buffered ≤ d.bytes.length - s.offset
    else len - s.buffered < 2 ^ 63

/-! ## The buffer -/

section Proofs

variable {d : Descriptor} {bufSize : Nat} {s : FdSource}

theorem inv_start (d : Descriptor) : Inv d start := by
  constructor <;> simp [start, pending, buffered, upcoming, position]

/-- Bytes taken from the buffer; an empty one starts over. -/
def consume (n : Nat) (s : FdSource) : FdSource :=
  if s.bufPosIn = s.bufPosOut + n then { s with bufPosIn := 0, bufPosOut := 0 }
  else { s with bufPosOut := s.bufPosOut + n }

theorem offset_consume (n : Nat) (s : FdSource) : (consume n s).offset = s.offset := by
  unfold consume
  split <;> rfl

theorem isSeekable_consume (n : Nat) (s : FdSource) : (consume n s).isSeekable = s.isSeekable := by
  unfold consume
  split <;> rfl

theorem buffered_consume (n : Nat) (s : FdSource) : (consume n s).buffered = s.buffered - n := by
  unfold consume buffered
  split
  · show 0 - 0 = s.bufPosIn - s.bufPosOut - n
    omega
  · show s.bufPosIn - (s.bufPosOut + n) = _
    omega

theorem pending_consume {n : Nat} (hn : n ≤ s.buffered) (hlen : s.pending.length = s.buffered) :
    (consume n s).pending = s.pending.drop n := by
  by_cases hall : n = s.buffered
  · have hnil : s.pending.drop n = [] := List.drop_eq_nil_of_le (by omega)
    rw [hnil, pending, buffered_consume, hall, Nat.sub_self, List.take_zero]
  · have hnot : s.bufPosIn ≠ s.bufPosOut + n := by
      unfold buffered at hn hall
      omega
    rw [pending, buffered_consume, consume, if_neg hnot, pending, List.drop_take, List.drop_drop]

theorem position_consume {n : Nat} (h : Inv d s) (hn : n ≤ s.buffered) :
    (consume n s).position = s.position + n := by
  have hbehind := h.behind
  rw [position, position, offset_consume, buffered_consume]
  omega

theorem Inv.consume {n : Nat} (h : Inv d s) (hn : n ≤ s.buffered) : Inv d (consume n s) := by
  have hpending := pending_consume hn h.length_pending
  have hbuffered := buffered_consume n s
  have hbehind := h.behind
  have hlen := h.length_pending
  refine ⟨?_, ?_, ?_, ?_, ?_, ?_, ?_⟩
  · unfold FdSource.consume
    unfold FdSource.buffered at hn
    have horder := h.order
    split
    · exact Nat.le_refl 0
    · show s.bufPosOut + n ≤ s.bufPosIn
      omega
  · unfold FdSource.consume
    split
    · exact fun _ => rfl
    · rename_i hnot
      exact fun heq => absurd heq hnot
  · unfold FdSource.consume
    split
    · exact fun hne => absurd rfl hne
    · exact h.allocated
  · rw [hpending, List.length_drop, hbuffered, hlen]
  · rw [hbuffered, offset_consume]
    omega
  · rw [offset_consume, ← h.counter]
    unfold FdSource.consume
    split <;> rfl
  · rw [position_consume h hn, ← List.drop_drop, ← h.upcoming_eq, upcoming, upcoming, hpending,
      offset_consume, List.drop_append_of_le_length (by omega)]

theorem consume_zero (h : Inv d s) : consume 0 s = s := by
  unfold consume
  split
  · rename_i heq
    have hin := h.reset heq
    rcases s with ⟨offset, buffer, bufPosIn, bufPosOut, read, isSeekable⟩
    simp only [Nat.add_zero] at heq hin ⊢
    rw [← heq, hin]
  · rfl

theorem discardBuffered_eq (h : Inv d s) (len : Nat) :
    discardBuffered len s = (len - s.buffered, consume (min len s.buffered) s) := by
  unfold discardBuffered
  split
  · rename_i hcond
    have horder := h.order
    split
    · rename_i hall
      rw [show min len s.buffered = s.buffered from Nat.min_eq_right hall, consume,
        if_pos (by unfold buffered; omega)]
      rfl
    · rename_i hsome
      have hlt : len < s.bufPosIn - s.bufPosOut := by omega
      rw [show min len s.buffered = len from Nat.min_eq_left (by unfold buffered; omega), consume,
        if_neg (by omega), show len - s.buffered = 0 by unfold buffered; omega]
  · rename_i hcond
    have hzero : len = 0 ∨ s.buffered = 0 := by
      by_contra hboth
      have hne : s.bufPosIn ≠ 0 := by
        unfold buffered at hboth
        omega
      exact hcond ⟨by omega, h.allocated hne, by unfold buffered at hboth; omega⟩
    rw [show min len s.buffered = 0 by omega, consume_zero h, show len - s.buffered = len by omega]

/-! ## Reading -/

theorem length_upcoming (h : Inv d s) : (s.upcoming d).length = d.bytes.length - s.position := by
  rw [h.upcoming_eq, List.length_drop]

/-- Only the buffer has changed hands. -/
structure SamePlace (d : Descriptor) (s t : FdSource) : Prop where
  inv : Inv d t
  position : t.position = s.position
  isSeekable : t.isSeekable = s.isSeekable

theorem refill_spec (hbuf : 0 < bufSize) (h : Inv d s) (count : Nat) :
    ∃ r t, refill d bufSize count s = (r, t) ∧ SamePlace d s t ∧
      (s.upcoming d = [] ∧ r = .error endOfFileError ∨ r = .ok () ∧ 0 < t.buffered) := by
  by_cases hin : s.bufPosIn = 0
  · have hout : s.bufPosOut = 0 := by
      have horder := h.order
      omega
    have hpending : s.pending = [] := by
      rw [pending, buffered, hin, Nat.zero_sub, List.take_zero]
    have hupcoming : s.upcoming d = d.bytes.drop s.offset := by rw [upcoming, hpending, List.nil_append]
    by_cases hchunk : (kernelRead d count bufSize s.offset).length = 0
    · refine ⟨.error endOfFileError,
        { s with buffer := some (s.buffer.getD (List.replicate bufSize 0)) }, ?_, ?_, Or.inl ⟨?_, rfl⟩⟩
      · simp only [refill, if_pos hin, if_pos hchunk]
      · refine ⟨⟨h.order, h.reset, fun _ => rfl, ?_, h.behind, h.counter, ?_⟩, rfl, rfl⟩
        · simp [pending, buffered, hin]
        · show _ = d.bytes.drop s.position
          rw [← h.upcoming_eq, hupcoming]
          simp [upcoming, pending, buffered, hin]
      · rw [hupcoming]
        have hlen := hchunk
        rw [kernelRead, List.length_take] at hlen
        exact List.eq_nil_of_length_eq_zero (by omega)
    · set chunk := kernelRead d count bufSize s.offset with hdef
      refine ⟨.ok (),
        { s with
          offset := s.offset + chunk.length
          buffer := some (chunk ++ (s.buffer.getD (List.replicate bufSize 0)).drop chunk.length)
          bufPosIn := chunk.length
          read := s.read + chunk.length }, ?_, ?_, Or.inr ⟨rfl, ?_⟩⟩
      · simp only [refill, if_pos hin, ← hdef, if_neg hchunk]
      · have hposition : s.offset + chunk.length - (chunk.length - s.bufPosOut) = s.position := by
          rw [position, buffered]
          omega
        refine ⟨⟨?_, ?_, fun _ => rfl, ?_, ?_, ?_, ?_⟩, hposition, rfl⟩
        · show s.bufPosOut ≤ chunk.length
          omega
        · exact fun heq => absurd (heq.trans hout) hchunk
        · simp [pending, buffered, hout]
        · show chunk.length - s.bufPosOut ≤ s.offset + chunk.length
          omega
        · show s.read + chunk.length = s.offset + chunk.length
          rw [h.counter]
        · show _ = d.bytes.drop (s.offset + chunk.length - (chunk.length - s.bufPosOut))
          rw [hposition, ← h.upcoming_eq, hupcoming]
          have hsplit : chunk ++ (d.bytes.drop s.offset).drop chunk.length = d.bytes.drop s.offset := by
            rw [hdef, kernelRead, List.length_take]
            rcases Nat.le_total (min bufSize (count + 1)) (d.bytes.drop s.offset).length with hle | hle
            · rw [Nat.min_eq_left hle, List.take_append_drop]
            · rw [Nat.min_eq_right hle, List.take_of_length_le hle, List.drop_length, List.append_nil]
          rw [List.drop_drop] at hsplit
          simpa [upcoming, pending, buffered, hout] using hsplit
      · show 0 < chunk.length - s.bufPosOut
        omega
  · obtain ⟨b, hb⟩ := Option.isSome_iff_exists.mp (h.allocated hin)
    have hsame : { s with buffer := some (s.buffer.getD (List.replicate bufSize 0)) } = s := by
      rcases s with ⟨offset, buffer, bufPosIn, bufPosOut, read, isSeekable⟩
      simp only at hb
      rw [hb]
      rfl
    refine ⟨.ok (), s, ?_, ⟨h, rfl, rfl⟩, Or.inr ⟨rfl, ?_⟩⟩
    · rw [refill]
      simp only [hsame, if_neg hin]
    · have horder := h.order
      have hreset := h.reset
      unfold buffered
      omega

/-- A read gives the next bytes, or the end of the file. -/
theorem bufferedRead_spec (hbuf : 0 < bufSize) (h : Inv d s) (count len : Nat) :
    ∃ r t, bufferedRead d bufSize count len s = (r, t) ∧ Inv d t ∧ t.isSeekable = s.isSeekable ∧
      (s.upcoming d = [] ∧ r = .error endOfFileError ∧ t.position = s.position ∨
        ∃ data, r = .ok data ∧ data = (s.upcoming d).take data.length ∧
          t.position = s.position + data.length ∧ data.length ≤ len ∧ (0 < len → 0 < data.length)) := by
  obtain ⟨r, t, hrefill, hplace, hcase⟩ := refill_spec hbuf h count
  have hupcoming : t.upcoming d = s.upcoming d := by
    rw [hplace.inv.upcoming_eq, hplace.position, ← h.upcoming_eq]
  rcases hcase with ⟨hnil, rfl⟩ | ⟨rfl, hpos⟩
  · exact ⟨_, t, by rw [bufferedRead, hrefill], hplace.inv, hplace.isSeekable,
      Or.inl ⟨hnil, rfl, hplace.position⟩⟩
  · have hmin : min len t.buffered ≤ t.buffered := Nat.min_le_right _ _
    have hdata : ((t.buffer.getD []).drop t.bufPosOut).take (min len t.buffered) =
        t.pending.take (min len t.buffered) := by
      rw [pending, List.take_take, Nat.min_eq_left hmin]
    have hlen : (t.pending.take (min len t.buffered)).length = min len t.buffered := by
      rw [List.length_take, hplace.inv.length_pending, Nat.min_eq_left hmin]
    refine ⟨.ok (t.pending.take (min len t.buffered)), consume (min len t.buffered) t, ?_,
      hplace.inv.consume hmin, by rw [isSeekable_consume, hplace.isSeekable],
      Or.inr ⟨_, rfl, ?_, ?_, ?_, ?_⟩⟩
    · rw [bufferedRead, hrefill, ← hdata]
      rfl
    · rw [hlen, ← hupcoming, upcoming, List.take_append_of_le_length]
      rw [hplace.inv.length_pending]
      exact hmin
    · rw [position_consume hplace.inv hmin, hplace.position, hlen]
    · rw [hlen]
      exact Nat.min_le_left _ _
    · rw [hlen]
      omega

/-- Where skipping is to end, and with what. -/
structure Skipped (d : Descriptor) (s : FdSource) (len : Nat) (r : Except Error Unit) (t : FdSource) :
    Prop where
  inv : Inv d t
  position : t.position = s.position + min len (s.upcoming d).length
  result : r = if len ≤ (s.upcoming d).length then .ok () else .error endOfFileError

/-- Reading and discarding: every round takes at least one byte. -/
theorem sourceSkip_spec (hbuf : 0 < bufSize) {rounds len : Nat} (h : Inv d s) (hrounds : len < rounds)
    (counts : Nat → Nat) :
    ∃ r t, sourceSkip d bufSize rounds counts len s = some (r, t) ∧ Skipped d s len r t := by
  induction rounds generalizing len counts s with
  | zero => exact absurd hrounds (Nat.not_lt_zero len)
  | succ rounds ih =>
      by_cases hzero : len = 0
      · refine ⟨.ok (), s, by rw [sourceSkip, if_pos hzero], h, ?_, ?_⟩
        · rw [hzero, Nat.zero_min, Nat.add_zero]
        · rw [if_pos (by omega)]
      · obtain ⟨r, t, hread, hinv, -, hcase⟩ := bufferedRead_spec hbuf h (counts 0) (min len 8192)
        rcases hcase with ⟨hnil, rfl, hposition⟩ | ⟨data, rfl, htake, hposition, hle, hpos⟩
        · refine ⟨.error endOfFileError, t, by rw [sourceSkip, if_neg hzero, hread], hinv, ?_, ?_⟩
          · rw [hposition, hnil, List.length_nil, Nat.min_zero, Nat.add_zero]
          · rw [hnil, List.length_nil, if_neg (by omega)]
        · have hgain := hpos (by omega)
          obtain ⟨r, u, hrest, hskipped⟩ :=
            ih hinv (show len - data.length < rounds by omega) fun i => counts (i + 1)
          have hlen : data.length ≤ (s.upcoming d).length := by
            have hcount := congrArg List.length htake
            rw [List.length_take] at hcount
            omega
          have hupcoming : (t.upcoming d).length = (s.upcoming d).length - data.length := by
            rw [length_upcoming hinv, length_upcoming h, hposition, Nat.sub_add_eq]
          refine ⟨r, u, by rw [sourceSkip, if_neg hzero, hread]; exact hrest, hskipped.inv, ?_, ?_⟩
          · rw [hskipped.position, hposition, hupcoming]
            omega
          · rw [hskipped.result, hupcoming]
            by_cases henough : len ≤ (s.upcoming d).length
            · rw [if_pos henough, if_pos (by omega)]
            · rw [if_neg henough, if_neg (by omega)]

/-! ## Skipping -/

theorem buffered_le_upcoming (h : Inv d s) : s.buffered ≤ (s.upcoming d).length := by
  rw [upcoming, List.length_append, h.length_pending]
  exact Nat.le_add_right _ _

/-- The flag is looked at in `skip` only. -/
theorem Inv.notSeekable (h : Inv d s) : Inv d { s with isSeekable := false } :=
  ⟨h.order, h.reset, h.allocated, h.length_pending, h.behind, h.counter, h.upcoming_eq⟩

/-- A seek with nothing buffered moves the position, wherever it goes. -/
theorem Inv.seek (h : Inv d s) (hempty : s.buffered = 0) (len : Nat) :
    Inv d { s with offset := s.offset + len, read := s.read + len } := by
  have hpending : s.pending = [] := List.eq_nil_of_length_eq_zero (by rw [h.length_pending, hempty])
  refine ⟨h.order, h.reset, h.allocated, h.length_pending, ?_, ?_, ?_⟩
  · exact h.behind.trans (Nat.le_add_right _ _)
  · show s.read + len = s.offset + len
    rw [h.counter]
  · show s.pending ++ d.bytes.drop (s.offset + len) = d.bytes.drop (s.offset + len - s.buffered)
    rw [hpending, hempty, Nat.sub_zero, List.nil_append]

/-- What is skipped of the buffer counts. -/
theorem Skipped.of_consume {t u : FdSource} {len : Nat} {r : Except Error Unit} (h : Inv d s)
    (ht : t = FdSource.consume (min len s.buffered) s) (hskipped : Skipped d t (len - s.buffered) r u) :
    Skipped d s len r u := by
  subst ht
  have hmin : min len s.buffered ≤ s.buffered := Nat.min_le_right _ _
  have hbuffered := buffered_le_upcoming h
  have hupcoming : ((FdSource.consume (min len s.buffered) s).upcoming d).length =
      (s.upcoming d).length - min len s.buffered := by
    rw [length_upcoming (h.consume hmin), length_upcoming h, position_consume h hmin, Nat.sub_add_eq]
  refine ⟨hskipped.inv, ?_, ?_⟩
  · rw [hskipped.position, position_consume h hmin, hupcoming]
    omega
  · rw [hskipped.result, hupcoming]
    by_cases henough : len ≤ (s.upcoming d).length
    · rw [if_pos henough, if_pos (by omega)]
    · rw [if_neg henough, if_neg (by omega)]

/-- Where more than the buffer is skipped, it is empty, and the position is that of the
descriptor. -/
theorem consume_all (h : Inv d s) {len : Nat} (hmore : len - s.buffered ≠ 0) :
    (consume (min len s.buffered) s).buffered = 0 ∧
    (consume (min len s.buffered) s).position = s.offset := by
  have hmin : min len s.buffered = s.buffered := Nat.min_eq_right (by omega)
  have hbehind := h.behind
  rw [hmin, buffered_consume, position_consume h (Nat.le_refl _), position]
  omega

theorem skip_eq (h : Inv d s) (rounds : Nat) (counts : Nat → Nat) (len : Nat) :
    skip d bufSize rounds counts len s =
      let t := consume (min len s.buffered) s
      let rest := len - s.buffered
      if s.isSeekable ∧ rest ≠ 0 then
        if rest > 2 ^ 63 - 1 then
          some (.error ⟨.error, "cannot skip %d bytes: exceeds maximum file offset", [natStr rest]⟩, t)
        else if d.seekable then
          if d.maxOffset < t.offset + rest then some (.error ⟨.error, "seeking forward in file", []⟩, t)
          else some (.ok (), { t with offset := t.offset + rest, read := t.read + rest })
        else sourceSkip d bufSize rounds counts rest { t with isSeekable := false }
      else if rest ≠ 0 then sourceSkip d bufSize rounds counts rest t
      else some (.ok (), t) := by
  rw [skip, discardBuffered_eq h]
  dsimp only
  rw [isSeekable_consume]

theorem skip_spec (hbuf : 0 < bufSize) {rounds len : Nat} (h : Inv d s) (hrounds : len < rounds)
    (counts : Nat → Nat) (hwithin : SkipsWithin d s len) :
    ∃ r t, skip d bufSize rounds counts len s = some (r, t) ∧ Skipped d s len r t := by
  have hinv : Inv d (consume (min len s.buffered) s) := h.consume (Nat.min_le_right _ _)
  have hrest : len - s.buffered < rounds := by omega
  rw [skip_eq h]
  dsimp only
  by_cases hmore : len - s.buffered = 0
  · -- the buffer has enough
    have hbuffered := buffered_le_upcoming h
    rw [if_neg fun hcond => hcond.2 hmore, if_neg (not_not.mpr hmore)]
    refine ⟨_, _, rfl, Skipped.of_consume h rfl ⟨hinv, ?_, ?_⟩⟩
    · rw [hmore, Nat.zero_min, Nat.add_zero]
    · rw [hmore, if_pos (Nat.zero_le _)]
  · obtain ⟨hempty, hposition⟩ := consume_all h hmore
    by_cases hseek : s.isSeekable = true
    · rw [if_pos ⟨hseek, hmore⟩]
      have hcond : if d.seekable then len - s.buffered ≤ d.bytes.length - s.offset
          else len - s.buffered < 2 ^ 63 := by
        rcases hwithin with hle | hfalse | hcond
        · omega
        · rw [hseek] at hfalse
          cases hfalse
        · exact hcond
      by_cases hfd : d.seekable = true
      · -- a seek within the file
        rw [if_pos hfd] at hcond
        have hoff := d.maxOffset_lt
        have hmax := d.length_le hfd
        rw [if_neg (by omega), if_pos hfd, offset_consume, if_neg (by omega)]
        refine ⟨_, _, rfl, Skipped.of_consume h rfl ⟨?_, ?_, ?_⟩⟩
        · have hinv' := hinv.seek hempty (len - s.buffered)
          rwa [offset_consume] at hinv'
        · rw [length_upcoming hinv, hposition]
          show s.offset + (len - s.buffered) - (consume (min len s.buffered) s).buffered = _
          rw [hempty]
          omega
        · rw [length_upcoming hinv, hposition, if_pos hcond]
      · -- the descriptor turns out not to be seekable
        rw [if_neg hfd] at hcond
        rw [if_neg (by omega), if_neg hfd]
        obtain ⟨r, t, hrun, hskipped⟩ := sourceSkip_spec hbuf hinv.notSeekable hrest counts
        exact ⟨r, t, hrun, Skipped.of_consume h rfl ⟨hskipped.inv, hskipped.position, hskipped.result⟩⟩
    · rw [if_neg fun hcond => hseek hcond.1, if_pos hmore]
      obtain ⟨r, t, hrun, hskipped⟩ := sourceSkip_spec hbuf hinv hrest counts
      exact ⟨r, t, hrun, Skipped.of_consume h rfl hskipped⟩

/-- Beyond the end no seek reports the end of the file. -/
theorem skip_beyond (h : Inv d s) {len : Nat} (hbeyond : ¬ SkipsWithin d s len) (rounds : Nat)
    (counts : Nat → Nat) {r : Except Error Unit} {t : FdSource}
    (hskip : skip d bufSize rounds counts len s = some (r, t)) :
    r = .ok () ∧ (s.upcoming d).length < len ∨ r ≠ .ok () ∧ r ≠ .error endOfFileError := by
  unfold SkipsWithin at hbeyond
  push Not at hbeyond
  obtain ⟨hmore, hseek, hcond⟩ := hbeyond
  have hseek' : s.isSeekable = true := by simpa using hseek
  have hother : ∀ fmt args, (⟨.error, fmt, args⟩ : Error) ≠ endOfFileError := by
    intro fmt args heq
    cases congrArg Error.cls heq
  rw [skip_eq h] at hskip
  dsimp only at hskip
  rw [if_pos ⟨hseek', by omega⟩] at hskip
  split at hskip
  · cases hskip
    exact Or.inr ⟨fun heq => (by cases heq), fun heq => hother _ _ (Except.error.inj heq)⟩
  · rename_i hoff
    by_cases hfd : d.seekable = true
    · rw [if_pos hfd] at hskip hcond
      split at hskip
      · cases hskip
        exact Or.inr ⟨fun heq => (by cases heq), fun heq => hother _ _ (Except.error.inj heq)⟩
      · cases hskip
        refine Or.inl ⟨rfl, ?_⟩
        have hbuffered := buffered_le_upcoming h
        have hbehind := h.behind
        rw [length_upcoming h] at hbuffered ⊢
        unfold position at hbuffered ⊢
        omega
    · rw [if_neg hfd] at hcond
      omega

theorem sourceSkip_inv (hbuf : 0 < bufSize) {rounds len : Nat} {counts : Nat → Nat} {r : Except Error Unit}
    {t : FdSource} (h : Inv d s) (hrun : sourceSkip d bufSize rounds counts len s = some (r, t)) :
    Inv d t := by
  induction rounds generalizing len counts s with
  | zero => cases hrun
  | succ rounds ih =>
      rw [sourceSkip] at hrun
      split at hrun
      · cases hrun
        exact h
      · obtain ⟨r', u, hread, hinv, -, hcase⟩ := bufferedRead_spec hbuf h (counts 0) (min len 8192)
        rw [hread] at hrun
        cases r' with
        | error e =>
            cases hrun
            exact hinv
        | ok data => exact ih hinv hrun

theorem skip_inv (hbuf : 0 < bufSize) {rounds len : Nat} {counts : Nat → Nat} {r : Except Error Unit}
    {t : FdSource} (h : Inv d s) (hskip : skip d bufSize rounds counts len s = some (r, t)) : Inv d t := by
  have hinv : Inv d (consume (min len s.buffered) s) := h.consume (Nat.min_le_right _ _)
  rw [skip_eq h] at hskip
  dsimp only at hskip
  split at hskip
  · rename_i hcond
    split at hskip
    · cases hskip
      exact hinv
    · split at hskip
      · split at hskip
        · cases hskip
          exact hinv
        · cases hskip
          exact hinv.seek (consume_all h hcond.2).1 _
      · exact sourceSkip_inv hbuf hinv.notSeekable hskip
  · split at hskip
    · exact sourceSkip_inv hbuf hinv hskip
    · cases hskip
      exact hinv

/-- Every call keeps the buffer in order. -/
theorem inv_of_reachable (hbuf : 0 < bufSize) (hs : (calls d bufSize).Reachable s) : Inv d s := by
  refine hs.invariant (fun s hinit => ?_) fun s call t hinv hstep => ?_
  · rw [show s = start from hinit]
    exact inv_start d
  · cases call with
    | read len count =>
        obtain ⟨r, u, hread, hinv', -, -⟩ := bufferedRead_spec hbuf hinv count len
        have ht : (bufferedRead d bufSize count len s).2 = t := hstep
        rw [hread] at ht
        rw [← ht]
        exact hinv'
    | skip len counts =>
        obtain ⟨rounds, r, hskip⟩ := hstep
        exact skip_inv hbuf hinv hskip

theorem read_sub_buffered (h : Inv d s) : s.read - s.buffered = s.position := by
  rw [h.counter, position]

theorem sameAsReading_iff (hbuf : 0 < bufSize) (h : Inv d s) (len : Nat) :
    SameAsReading d bufSize s len ↔ SkipsWithin d s len := by
  constructor
  · intro hsame
    by_contra hbeyond
    obtain ⟨r, s₁, s₂, hskip, -, -, -, -, hr, heof⟩ := hsame (fun _ => 0) (fun _ => 0) (len + 1) (Nat.lt_succ_self _)
    rcases skip_beyond h hbeyond _ _ hskip with ⟨rfl, hshort⟩ | ⟨hok, hnot⟩
    · cases heof.mpr hshort
    · exact hr.elim hok hnot
  · intro hwithin counts counts' rounds hrounds
    obtain ⟨r, s₁, hskip, hskipped⟩ := skip_spec hbuf h hrounds counts hwithin
    obtain ⟨r', s₂, hread, hskipped'⟩ := sourceSkip_spec hbuf h hrounds counts'
    have hposition : s₁.position = s₂.position := by rw [hskipped.position, hskipped'.position]
    refine ⟨r, s₁, s₂, hskip, ?_, ?_, hposition, ?_, ?_, ?_⟩
    · rw [hread, hskipped.result, hskipped'.result]
    · rw [hskipped.inv.upcoming_eq, hskipped'.inv.upcoming_eq, hposition]
    · rw [read_sub_buffered hskipped.inv, read_sub_buffered hskipped'.inv, hposition]
    · rw [hskipped.result]
      split
      · exact Or.inl rfl
      · exact Or.inr rfl
    · rw [hskipped.result]
      split
      · rename_i henough
        exact ⟨fun heq => (by cases heq), fun hlt => absurd hlt (Nat.not_lt.mpr henough)⟩
      · rename_i hshort
        exact ⟨fun _ => Nat.not_le.mp hshort, fun _ => rfl⟩

/-- More rounds than it takes change nothing. -/
theorem sourceSkip_mono {rounds len : Nat} {counts : Nat → Nat} {x : Except Error Unit × FdSource}
    (h : sourceSkip d bufSize rounds counts len s = some x) (more : Nat) :
    sourceSkip d bufSize (rounds + more) counts len s = some x := by
  induction rounds generalizing len counts s with
  | zero => cases h
  | succ rounds ih =>
      rw [Nat.add_right_comm]
      rw [sourceSkip] at h ⊢
      split
      · rwa [if_pos ‹_›] at h
      · rw [if_neg ‹_›] at h
        rcases hread : bufferedRead d bufSize (counts 0) (min len 8192) s with ⟨r, t⟩
        rw [hread] at h
        cases r with
        | error e => exact h
        | ok data => exact ih h

theorem skip_mono {rounds len : Nat} {counts : Nat → Nat} {x : Except Error Unit × FdSource}
    (h : skip d bufSize rounds counts len s = some x) (more : Nat) :
    skip d bufSize (rounds + more) counts len s = some x := by
  rw [skip] at h ⊢
  dsimp only at h ⊢
  split
  · rw [if_pos ‹_›] at h
    split
    · rwa [if_pos ‹_›] at h
    · rw [if_neg ‹_›] at h
      split
      · rwa [if_pos ‹_›] at h
      · rw [if_neg ‹_›] at h
        exact sourceSkip_mono h more
  · rw [if_neg ‹_›] at h
    split
    · rw [if_pos ‹_›] at h
      exact sourceSkip_mono h more
    · rwa [if_neg ‹_›] at h

/-- A skip that is within does not leave the file. -/
theorem skip_position_le (hbuf : 0 < bufSize) {rounds len : Nat} {counts : Nat → Nat}
    {r : Except Error Unit} {t : FdSource} (h : Inv d s) (hin : s.position ≤ d.bytes.length)
    (hwithin : SkipsWithin d s len) (hskip : skip d bufSize rounds counts len s = some (r, t)) :
    t.position ≤ d.bytes.length := by
  obtain ⟨r', t', hskip', hskipped⟩ :=
    skip_spec hbuf h (show len < rounds + (len + 1) by omega) counts hwithin
  rw [skip_mono hskip] at hskip'
  cases hskip'
  have hupcoming := length_upcoming h
  rw [hskipped.position]
  omega

/-- The skips of a run are within. -/
def CallWithin (d : Descriptor) (s : FdSource) : Call → Prop
  | .read _ _ => True
  | .skip len _ => SkipsWithin d s len

theorem position_le_of_within (hbuf : 0 < bufSize)
    (hs : ((calls d bufSize).restrict (CallWithin d)).Reachable s) : s.position ≤ d.bytes.length := by
  have hboth : Inv d s ∧ s.position ≤ d.bytes.length := by
    refine hs.invariant (P := fun s => Inv d s ∧ s.position ≤ d.bytes.length)
      (fun s hinit => ?_) fun s call t hinv hstep => ?_
    · rw [show s = start from hinit]
      exact ⟨inv_start d, Nat.zero_le _⟩
    · obtain ⟨hstep, hwithin⟩ := hstep
      obtain ⟨hinv, hin⟩ := hinv
      cases call with
      | read len count =>
          obtain ⟨r, u, hread, hinv', -, hcase⟩ := bufferedRead_spec hbuf hinv count len
          have ht : (bufferedRead d bufSize count len s).2 = t := hstep
          rw [hread] at ht
          subst ht
          refine ⟨hinv', ?_⟩
          rcases hcase with ⟨-, -, hposition⟩ | ⟨data, -, htake, hposition, -, -⟩
          · rw [hposition]
            exact hin
          · have hlen := congrArg List.length htake
            rw [List.length_take, length_upcoming hinv] at hlen
            show u.position ≤ _
            omega
      | skip len counts =>
          obtain ⟨rounds, r, hskip⟩ := hstep
          exact ⟨skip_inv hbuf hinv hskip, skip_position_le hbuf hinv hin hwithin hskip⟩
  exact hboth.2

/-- After any calls in any order: the counter less what is buffered is the position, what
is left to read starts there, and a skip is what reading and discarding is exactly where
it does not seek beyond the end; in a run of such skips the position stays in the file. -/
theorem skip_iff (hbuf : 0 < bufSize) :
    (∀ s, (calls d bufSize).Reachable s → s.read - s.buffered = s.position ∧
      s.upcoming d = d.bytes.drop s.position ∧
      ∀ len, SameAsReading d bufSize s len ↔ SkipsWithin d s len) ∧
    ∀ s, ((calls d bufSize).restrict (CallWithin d)).Reachable s → s.position ≤ d.bytes.length :=
  ⟨fun _ hs => ⟨read_sub_buffered (inv_of_reachable hbuf hs), (inv_of_reachable hbuf hs).upcoming_eq,
    sameAsReading_iff hbuf (inv_of_reachable hbuf hs)⟩, fun _ hs => position_le_of_within hbuf hs⟩

end Proofs

/-- A file of two bytes. -/
def twoBytes : Descriptor := ⟨[1, 2], true, 2 ^ 40, by decide, fun _ => by decide⟩

theorem skip_two : SameAsReading twoBytes 32768 start 2 ↔ SkipsWithin twoBytes start 2 :=
  ((skip_iff (d := twoBytes) (show 0 < 32768 by decide)).1 start (.of_init rfl)).2.2 2

/-- Five bytes of it are skipped without complaint; reading comes to the end. -/
theorem skip_five_not_same :
    skip twoBytes 1 6 (fun _ => 0) 5 start = some (.ok (), ⟨5, none, 0, 0, 5, true⟩) ∧
    sourceSkip twoBytes 1 6 (fun _ => 0) 5 start =
      some (.error endOfFileError, ⟨2, some [2], 0, 0, 2, true⟩) ∧
    ¬ SameAsReading twoBytes 1 start 5 := by
  have hskip : skip twoBytes 1 6 (fun _ => 0) 5 start = some (.ok (), ⟨5, none, 0, 0, 5, true⟩) := by
    rfl
  refine ⟨hskip, rfl, fun hsame => ?_⟩
  obtain ⟨r, s₁, s₂, hrun, -, -, -, -, -, heof⟩ := hsame (fun _ => 0) (fun _ => 0) 6 (by decide)
  rw [hskip] at hrun
  cases hrun
  cases heof.mpr (by decide)

end FdSource
end Util
end Archinix
