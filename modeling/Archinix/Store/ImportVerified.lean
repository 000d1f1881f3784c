import Archinix.Store.ExportPaths
import Archinix.Store.ImportBesideCollector

/-!
# Receiving paths

`importVerified` of `import-path.cc`.  The records are read one after another and each is
handed to `addToStore` before the next is read.
-/

namespace Archinix
namespace Store
namespace Adding

open Foundation Util Exporting

variable [Sha256] (settings : Settings) (reads : ReadSizes) (depth : Nat)

/-- One record of the stream, or what is wrong with it. -/
def nextRecord (source : Bytes) : Except Error (Option (ValidPathInfo × Bytes) × Bytes) :=
  (readRecord (ω := Empty) settings.toStoreDirConfig reads source).result

/-- The loop of `importVerified`: the paths, and what is left of the stream.  Every round reads
at least eight bytes, so the rounds are bounded by the bytes left. -/
def importRounds : (rounds : Nat) → (source : Bytes) → Prog Requests (List StorePath × Bytes)
  | 0, _ => throw (.error endOfString)
  | rounds + 1, source => do
      match ← compute (nextRecord settings reads source) with
      | (none, rest) => pure ([], rest)
      | (some (info, saved), rest) => do
          addToStore settings depth info saved
          let (res, left) ← importRounds rounds rest
          pure (info.path :: res, left)

def importVerified (source : Bytes) : Prog Requests (List StorePath × Bytes) :=
  importRounds settings reads depth source.length source

/-- The archive of the tree is that of a record that is reached, if the records before it are
accepted. -/
inductive Receives : Bytes → Tree → Prop
  | here {source rest : Bytes} {info : ValidPathInfo} {t : Tree}
      (h : nextRecord settings reads source = .ok (some (info, t.nar), rest)) : Receives source t
  | later {source saved rest : Bytes} {info : ValidPathInfo} {t : Tree}
      (h : nextRecord settings reads source = .ok (some (info, saved), rest))
      (hrest : Receives rest t) : Receives source t

/-- A whole stream: records that are accepted, with these paths, up to the end mark, and what
follows it. -/
inductive Stream : Bytes → List StorePath → Bytes → Prop
  | stop {source left : Bytes} (h : nextRecord settings reads source = .ok (none, left)) :
      Stream source [] left
  | record {source saved rest left : Bytes} {info : ValidPathInfo} {paths : List StorePath}
      (h : nextRecord settings reads source = .ok (some (info, saved), rest))
      (hrest : Stream rest paths left) : Stream source (info.path :: paths) left

variable {settings reads} {source saved rest : Bytes} {info : ValidPathInfo}

theorem written_of_nextRecord {r : Option (ValidPathInfo × Bytes)}
    (h : nextRecord settings reads source = .ok (r, rest)) :
    ∃ bs, source = bs ++ rest ∧ Written settings.toStoreDirConfig bs r := by
  have hrun : readRecord (ω := Empty) settings.toStoreDirConfig reads source =
      ⟨(readRecord (ω := Empty) settings.toStoreDirConfig reads source).emitted, .ok (r, rest)⟩ := by
    rw [← h]
    rfl
  exact accepts_readRecord source _ r rest hrun

/-- What a record that is accepted consists of. -/
theorem nextRecord_eq_ok {r : Option (ValidPathInfo × Bytes)}
    (h : nextRecord settings reads source = .ok (r, rest)) : rest.length + 8 ≤ source.length ∧
      ∀ info saved, r = some (info, saved) → Exporting.Verified settings.toStoreDirConfig info saved := by
  obtain ⟨bs, rfl, hwritten⟩ := written_of_nextRecord h
  refine ⟨by rw [List.length_append]; have := hwritten.length; omega, ?_⟩
  rintro info saved rfl
  exact hwritten.verified

/-- Reading a record as it was written. -/
theorem nextRecord_of_written {bs : Bytes} {r : Option (ValidPathInfo × Bytes)}
    (h : Written settings.toStoreDirConfig bs r) (rest : Bytes) :
    nextRecord settings reads (bs ++ rest) = .ok (r, rest) := by
  rw [nextRecord, h.readRecord rest]

theorem nextRecord_end (rest : Bytes) :
    nextRecord settings reads (littleEndian 0 ++ rest) = .ok (none, rest) :=
  nextRecord_of_written .stop rest

variable {depth}

theorem importRounds_end (rounds : Nat) (rest : Bytes) :
    importRounds settings reads depth (rounds + 1) (littleEndian 0 ++ rest) = pure ([], rest) := by
  rw [importRounds, nextRecord_end]
  rfl

/-- One round. -/
theorem importRounds_next (rounds : Nat)
    (h : nextRecord settings reads source = .ok (some (info, saved), rest)) :
    importRounds settings reads depth (rounds + 1) source =
      (addToStore settings depth info saved).bind fun _ =>
        (importRounds settings reads depth rounds rest).bind fun r =>
          .done (.ok (info.path :: r.1, r.2)) := by
  rw [importRounds, h]
  rfl

/-- Nothing is returned of a stream that is not whole. -/
theorem importRounds_stream {ι : Type} [DecidableEq ι] {i : ι} {w w' : World ι} {rounds : Nat}
    {paths : List StorePath} {left : Bytes}
    (h : Prog.Ends (exec settings i) w (importRounds settings reads depth rounds source)
      (.ok (paths, left)) w') : Stream settings reads source paths left := by
  induction rounds generalizing source paths left w with
  | zero => cases h
  | succ rounds ih =>
      rcases hnext : nextRecord settings reads source with e | ⟨- | ⟨info, saved⟩, rest⟩
      · rw [importRounds, hnext] at h
        cases h
      · rw [importRounds, hnext] at h
        cases h
        exact .stop hnext
      · rw [importRounds_next rounds hnext] at h
        obtain ⟨-, v, -, hrest⟩ := Prog.Ends.of_bind h
        obtain ⟨r, v', hrounds, hlast⟩ := Prog.Ends.of_bind hrest
        cases hlast
        exact .record hnext (ih hrounds)

end Adding
end Store
end Archinix
