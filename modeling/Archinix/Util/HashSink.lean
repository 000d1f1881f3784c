import Archinix.Util.Hash
import Archinix.Util.SourceToSink

/-!
# HashSink

The buffered sink of `hash.cc`: writes are coalesced in a small buffer and digested from
there.  A context that `SHA256_Update` was given data in several pieces stands for their
concatenation.
-/

namespace Archinix
namespace Util

open SourceToSink (bufferedWrite flush bufferedWrite_flatten flush_flatten)

structure HashSink where
  /-- The contents of the `BufferedSink`. -/
  buffer : Bytes
  /-- What `SHA256_Update` has been given. -/
  ctx : Bytes
  bytes : Nat
  counted : bytes = ctx.length
  deriving DecidableEq

namespace HashSink

/-- The `bufSize` of a `HashSink`. -/
def bufSize : Nat := 1024

def new : HashSink := ⟨[], [], 0, rfl⟩

def writeUnbuffered (h : HashSink) (data : Bytes) : HashSink where
  buffer := h.buffer
  ctx := h.ctx ++ data
  bytes := h.bytes + data.length
  counted := by rw [List.length_append, h.counted]

/-- `operator()`. -/
def write (h : HashSink) (data : Bytes) : HashSink :=
  { (bufferedWrite bufSize h.buffer data).1.foldl writeUnbuffered h with
    buffer := (bufferedWrite bufSize h.buffer data).2 }

def finish [Sha256] (h : HashSink) : HashResult :=
  let h := (flush h.buffer).foldl writeUnbuffered h
  ⟨hashString h.ctx, h.bytes⟩

/-- Everything that has been written. -/
def given (h : HashSink) : Bytes := h.ctx ++ h.buffer

theorem foldl_writeUnbuffered_ctx (chunks : List Bytes) (h : HashSink) :
    (chunks.foldl writeUnbuffered h).ctx = h.ctx ++ chunks.flatten := by
  induction chunks generalizing h with
  | nil => exact (List.append_nil h.ctx).symm
  | cons chunk chunks ih =>
      rw [List.foldl_cons, ih, List.flatten_cons, ← List.append_assoc]
      rfl

theorem given_write (h : HashSink) (data : Bytes) : (h.write data).given = h.given ++ data := by
  show ((bufferedWrite bufSize h.buffer data).1.foldl writeUnbuffered h).ctx ++
    (bufferedWrite bufSize h.buffer data).2 = h.ctx ++ h.buffer ++ data
  rw [foldl_writeUnbuffered_ctx, List.append_assoc, bufferedWrite_flatten, List.append_assoc]

/-- However the writes were cut, the result is that of one write. -/
theorem finish_eq [Sha256] (h : HashSink) : h.finish = hashSink h.given := by
  have hctx : ((flush h.buffer).foldl writeUnbuffered h).ctx = h.given := by
    rw [foldl_writeUnbuffered_ctx, flush_flatten]
    rfl
  unfold finish
  dsimp only
  rw [HashSink.counted, hctx]
  rfl

/-- The result after any writes. -/
theorem finish_foldl_write [Sha256] (writes : List Bytes) :
    (writes.foldl write new).finish = hashSink writes.flatten := by
  have hgiven : ∀ (writes : List Bytes) (h : HashSink),
      (writes.foldl write h).given = h.given ++ writes.flatten := by
    intro writes
    induction writes with
    | nil => exact fun h => (List.append_nil _).symm
    | cons data writes ih =>
        intro h
        rw [List.foldl_cons, ih, given_write, List.flatten_cons, List.append_assoc]
  rw [finish_eq, hgiven]
  rfl

end HashSink

end Util
end Archinix
