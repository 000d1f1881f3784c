import Archinix.Foundation.Emit
import Archinix.Util.Bytes

/-!
# Serialisation primitives

The reading and writing half of `serialise.cc`.  A `Source` is the byte string
still unread, as in `StringSource`; a reader may call sinks while it reads, so
it lives in `StateT Bytes` over `Emit`.
-/

namespace Archinix
namespace Util

open Foundation

/-- The exception classes the modelled code distinguishes. -/
inductive ErrorClass where
  | error
  | endOfFile
  | serialisationError
  | fileNotFound
  | notASymlink
  | notADirectory
  | notARegularFile
  | symlinkNotAllowed
  | badStorePath
  | badStorePathName
  | badHash
  | pathInUse
  | invalidPath
  | sqliteError
  | badCanonPath
  deriving DecidableEq

/-- An exception: its class, the format string of its message and the values
formatted into it. -/
structure Error where
  cls : ErrorClass
  fmt : String
  args : List Bytes
  deriving DecidableEq

/-- A writer into a `Sink`. -/
abbrev Writer := Emit UInt8 Error

/-- A reader from a `Source` that reports `ω` to other sinks as it goes. -/
abbrev Reader (ω : Type) := StateT Bytes (Emit ω Error)

/-- `StringSource::read` and `StringSource::skip` past the last byte. -/
def endOfString : Error := ⟨.endOfFile, "end of string reached", []⟩

/-! ## Writing -/

/-- `operator<<(Sink &, uint64_t)`. -/
def writeNum (n : Nat) : Writer Unit := Emit.tellAll (littleEndian n)

def writePadding (len : Nat) : Writer Unit :=
  if len % 8 ≠ 0 then Emit.tellAll (List.replicate (8 - len % 8) 0) else pure ()

def writeString (data : Bytes) : Writer Unit := do
  writeNum data.length
  Emit.tellAll data
  writePadding data.length

/-- What `writeString` puts on the wire. -/
def encodeString (data : Bytes) : Bytes :=
  littleEndian data.length ++ data ++ padding data.length

@[simp] theorem writeNum_eq (n : Nat) : writeNum n = ⟨littleEndian n, .ok ()⟩ := rfl

@[simp] theorem writePadding_eq (len : Nat) : writePadding len = ⟨padding len, .ok ()⟩ := by
  unfold writePadding padding
  by_cases h : len % 8 = 0 <;> simp [h, Emit.tellAll]

@[simp] theorem writeString_eq (data : Bytes) :
    writeString data = ⟨encodeString data, .ok ()⟩ := by
  simp [writeString, encodeString, Emit.tellAll]

/-! ## Reading -/

section Readers

variable {ω : Type}

/-- Throw `err` when the check fails. -/
def throwIf (failed : Prop) [Decidable failed] (err : Error) : Reader ω Unit :=
  if failed then throw err else pure ()

/-- `Source::operator()(char *, size_t)`: exactly `len` bytes or `EndOfFile`. -/
def readBytes (len : Nat) : Reader ω Bytes := fun src =>
  if src.length < len then ⟨[], .error endOfString⟩
  else ⟨[], .ok (src.take len, src.drop len)⟩

/-- `Source::skip`. -/
def skip (len : Nat) : Reader ω Unit := fun src =>
  if src.length < len then ⟨[], .error endOfString⟩
  else ⟨[], .ok ((), src.drop len)⟩

/-- `readNum<T>` for a type holding at most `max`, named `typeName`. -/
def readNum (max : Nat) (typeName : String) : Reader ω Nat := do
  let buf ← readBytes 8
  let n := readLittleEndian buf
  throwIf (n > max) ⟨.serialisationError,
    "serialised integer %d is too large for type '%s'", [natStr n, str typeName]⟩
  return n

/-- `readLongLong`, and `readNum<size_t>` on a 64-bit host. -/
def readLongLong : Reader ω Nat := readNum (2 ^ 64 - 1) "m"

/-- `readInt`. -/
def readInt : Reader ω Nat := readNum (2 ^ 32 - 1) "j"

def readPadding (len : Nat) : Reader ω Unit :=
  if len % 8 ≠ 0 then do
    let zero ← readBytes (8 - len % 8)
    throwIf (¬ zero.all (· == 0)) ⟨.serialisationError, "non-zero padding", []⟩
  else
    pure ()

def readString (max : Nat) : Reader ω Bytes := do
  let len ← readLongLong
  throwIf (len > max) ⟨.serialisationError, "string is too long", []⟩
  let res ← readBytes len
  readPadding len
  return res

/-! ### Running a reader -/

@[simp] theorem Reader.pure_run {α : Type} (a : α) (src : Bytes) :
    (pure a : Reader ω α) src = ⟨[], .ok (a, src)⟩ := rfl

@[simp] theorem Reader.throw_run {α : Type} (err : Error) (src : Bytes) :
    (throw err : Reader ω α) src = ⟨[], .error err⟩ := rfl

theorem Reader.bind_run {α β : Type} (x : Reader ω α) (f : α → Reader ω β) (src : Bytes) :
    (x >>= f) src = (x src >>= fun r => f r.1 r.2) := rfl

/-- `p` turns exactly the bytes `bs` into `a`, whatever follows them, and hands
`out` to the sink. -/
def Reads {α : Type} (p : Reader ω α) (bs : Bytes) (out : List ω) (a : α) : Prop :=
  ∀ rest, p (bs ++ rest) = ⟨out, .ok (a, rest)⟩

/-- Whatever `p` reads successfully is described by `R`: the bytes consumed,
the calls made to the sink and the value returned. -/
def Accepts {α : Type} (p : Reader ω α) (R : Bytes → List ω → α → Prop) : Prop :=
  ∀ src out a rest, p src = ⟨out, .ok (a, rest)⟩ → ∃ bs, src = bs ++ rest ∧ R bs out a

theorem Reads.pure {α : Type} (a : α) : Reads (Pure.pure a : Reader ω α) [] [] a :=
  fun _ => rfl

theorem Reads.bind {α β : Type} {p : Reader ω α} {f : α → Reader ω β} {bs bs' : Bytes}
    {out out' : List ω} {a : α} {b : β} (hp : Reads p bs out a)
    (hf : Reads (f a) bs' out' b) : Reads (p >>= f) (bs ++ bs') (out ++ out') b := by
  intro rest
  rw [Reader.bind_run, List.append_assoc, hp (bs' ++ rest)]
  simp only [Emit.bind_ok]
  rw [hf rest]
  rfl

theorem Accepts.pure {α : Type} (a : α) :
    Accepts (Pure.pure a : Reader ω α) fun bs out b => bs = [] ∧ out = [] ∧ b = a := by
  intro src out b rest h
  simp only [Reader.pure_run, Emit.mk.injEq, Except.ok.injEq, Prod.mk.injEq] at h
  obtain ⟨rfl, rfl, rfl⟩ := h
  exact ⟨[], rfl, rfl, rfl, rfl⟩

theorem Accepts.throw {α : Type} (err : Error) (R : Bytes → List ω → α → Prop) :
    Accepts (MonadExcept.throw err : Reader ω α) R := by
  intro src out a rest h
  simp at h

theorem Accepts.mono {α : Type} {p : Reader ω α} {R R' : Bytes → List ω → α → Prop}
    (hp : Accepts p R) (h : ∀ bs out a, R bs out a → R' bs out a) : Accepts p R' := by
  intro src out a rest hrun
  obtain ⟨bs, hsrc, hR⟩ := hp src out a rest hrun
  exact ⟨bs, hsrc, h bs out a hR⟩

/-- The accepted reads of a sequence are an accepted read of its first half
followed by an accepted read of the second. -/
theorem Accepts.bind {α β : Type} {p : Reader ω α} {f : α → Reader ω β}
    {R : Bytes → List ω → α → Prop} {R' : α → Bytes → List ω → β → Prop}
    (hp : Accepts p R) (hf : ∀ a, Accepts (f a) (R' a)) :
    Accepts (p >>= f) fun bs out b => ∃ first out₁ a second out₂,
      bs = first ++ second ∧ out = out₁ ++ out₂ ∧ R first out₁ a ∧ R' a second out₂ b := by
  intro src out b rest h
  rw [Reader.bind_run] at h
  obtain ⟨out₁, ⟨a, mid⟩, out₂, hx, hrun, rfl⟩ := Emit.bind_eq_ok h
  obtain ⟨first, rfl, hR⟩ := hp src out₁ a mid hx
  obtain ⟨second, rfl, hR'⟩ := hf a mid out₂ b rest hrun
  exact ⟨first ++ second, by simp, first, out₁, a, second, out₂, rfl, rfl, hR, hR'⟩

/-- Forward form of the same rule: what the first half has read is known while
the second half is described. -/
theorem Accepts.andThen {α β : Type} {p : Reader ω α} {f : α → Reader ω β}
    {R : Bytes → List ω → α → Prop} {R' : Bytes → List ω → β → Prop} (hp : Accepts p R)
    (hf : ∀ first out₁ a, R first out₁ a →
      Accepts (f a) fun bs out b => R' (first ++ bs) (out₁ ++ out) b) :
    Accepts (p >>= f) R' := by
  intro src out b rest h
  rw [Reader.bind_run] at h
  obtain ⟨out₁, ⟨a, mid⟩, out₂, hx, hrun, rfl⟩ := Emit.bind_eq_ok h
  obtain ⟨first, rfl, hR⟩ := hp src out₁ a mid hx
  obtain ⟨second, rfl, hR'⟩ := hf first out₁ a hR mid out₂ b rest hrun
  exact ⟨first ++ second, by simp, hR'⟩

/-! ### What the primitives read -/

theorem reads_throwIf {failed : Prop} [Decidable failed] (h : ¬ failed) (err : Error) :
    Reads (throwIf failed err : Reader ω Unit) [] [] () := by
  intro rest
  simp [throwIf, h]

theorem accepts_throwIf (failed : Prop) [Decidable failed] (err : Error) :
    Accepts (throwIf failed err : Reader ω Unit)
      fun bs out _ => bs = [] ∧ out = [] ∧ ¬ failed := by
  intro src out a rest h
  by_cases hfailed : failed
  · simp [throwIf, hfailed] at h
  · simp [throwIf, hfailed] at h
    obtain ⟨rfl, rfl⟩ := h
    exact ⟨[], rfl, rfl, rfl, hfailed⟩

/-- A check that passed is a fact for the rest of the reader. -/
theorem Accepts.check {β : Type} {failed : Prop} [Decidable failed] {err : Error}
    {f : Unit → Reader ω β} {R : Bytes → List ω → β → Prop}
    (hf : ¬ failed → Accepts (f ()) R) : Accepts (throwIf failed err >>= f) R := by
  refine (accepts_throwIf failed err).andThen ?_
  rintro _ _ ⟨⟩ ⟨rfl, rfl, hpassed⟩
  exact hf hpassed

theorem reads_readBytes (bs : Bytes) :
    Reads (readBytes bs.length : Reader ω Bytes) bs [] bs := by
  intro rest
  simp [readBytes]

theorem accepts_readBytes (len : Nat) :
    Accepts (readBytes len : Reader ω Bytes)
      fun bs out a => out = [] ∧ a = bs ∧ bs.length = len := by
  intro src out a rest h
  by_cases hlen : src.length < len
  · simp [readBytes, hlen] at h
  · simp [readBytes, hlen] at h
    obtain ⟨rfl, rfl, rfl⟩ := h
    exact ⟨src.take len, (List.take_append_drop len src).symm, rfl, rfl, by simp; omega⟩

theorem reads_readLongLong {n : Nat} (h : n < 2 ^ 64) :
    Reads (readLongLong : Reader ω Nat) (littleEndian n) [] n := by
  have hdecode := readLittleEndian_littleEndian h
  have hbytes := reads_readBytes (ω := ω) (littleEndian n)
  rw [littleEndian_length] at hbytes
  have hread : Reads (readLongLong : Reader ω Nat) _ _ (readLittleEndian (littleEndian n)) :=
    hbytes.bind ((reads_throwIf (by rw [hdecode]; omega) _).bind (Reads.pure _))
  simpa [hdecode] using hread

theorem accepts_readLongLong :
    Accepts (readLongLong : Reader ω Nat)
      fun bs out n => out = [] ∧ bs = littleEndian n ∧ n < 2 ^ 64 := by
  refine (Accepts.bind (accepts_readBytes 8) fun buf =>
    Accepts.bind (accepts_throwIf _ _) fun _ => Accepts.pure _).mono ?_
  rintro bs out n ⟨buf, _, _, _, _, rfl, rfl, ⟨rfl, rfl, hlen⟩,
    _, _, _, _, _, rfl, rfl, ⟨rfl, rfl, -⟩, rfl, rfl, rfl⟩
  simp only [List.append_nil]
  exact ⟨trivial, (littleEndian_readLittleEndian hlen).symm, readLittleEndian_lt_of_length hlen⟩

theorem reads_readPadding (len : Nat) :
    Reads (readPadding len : Reader ω Unit) (padding len) [] () := by
  unfold readPadding padding
  by_cases h : len % 8 = 0
  · simpa [h] using Reads.pure ()
  · have hbytes := reads_readBytes (ω := ω) (List.replicate (8 - len % 8) 0)
    rw [List.length_replicate] at hbytes
    rw [if_pos h, if_neg h, ← List.append_nil (List.replicate _ _)]
    exact Reads.bind (f := fun zero => throwIf (¬ zero.all (· == 0)) _) hbytes
      (reads_throwIf (by simp) _)

theorem accepts_readPadding (len : Nat) :
    Accepts (readPadding len : Reader ω Unit) fun bs out _ => out = [] ∧ bs = padding len := by
  unfold readPadding padding
  by_cases h : len % 8 = 0
  · simp only [h, ne_eq, not_true_eq_false, if_false, if_true]
    exact (Accepts.pure ()).mono fun bs out _ ⟨hbs, hout, _⟩ => ⟨hout, hbs⟩
  · rw [if_pos h, if_neg h]
    refine (Accepts.bind (accepts_readBytes _) fun zero => accepts_throwIf _ _).mono ?_
    rintro bs out _ ⟨zero, _, _, _, _, rfl, rfl, ⟨rfl, rfl, hlen⟩, rfl, rfl, hzero⟩
    simp only [not_not] at hzero
    refine ⟨rfl, ?_⟩
    rw [List.append_nil, eq_replicate_zero_of_all hzero, hlen]

theorem reads_readString {s : Bytes} {max : Nat} (hmax : s.length ≤ max)
    (hsize : s.length < 2 ^ 64) :
    Reads (readString max : Reader ω Bytes) (encodeString s) [] s := by
  have h : Reads (readString max : Reader ω Bytes) _ _ s :=
    (reads_readLongLong hsize).bind ((reads_throwIf (by omega) _).bind
      ((reads_readBytes s).bind ((reads_readPadding s.length).bind (Reads.pure s))))
  simpa [encodeString] using h

theorem accepts_readString (max : Nat) :
    Accepts (readString max : Reader ω Bytes)
      fun bs out s => out = [] ∧ bs = encodeString s ∧ s.length ≤ max ∧ s.length < 2 ^ 64 := by
  refine (Accepts.bind accepts_readLongLong fun len =>
    Accepts.bind (accepts_throwIf _ _) fun _ =>
    Accepts.bind (accepts_readBytes len) fun res =>
    Accepts.bind (accepts_readPadding len) fun _ => Accepts.pure res).mono ?_
  rintro bs out s ⟨_, _, len, _, _, rfl, rfl, ⟨rfl, rfl, hsize⟩,
    _, _, _, _, _, rfl, rfl, ⟨rfl, rfl, hmax⟩,
    _, _, res, _, _, rfl, rfl, ⟨rfl, rfl, rfl⟩,
    _, _, _, _, _, rfl, rfl, ⟨rfl, rfl⟩, rfl, rfl, rfl⟩
  exact ⟨rfl, by simp [encodeString], by omega, hsize⟩

end Readers

end Util
end Archinix
