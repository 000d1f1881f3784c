import Archinix.Util.Bytes
import Mathlib.Data.List.GetD

/-!
# Hashes

`hash.cc` over an unknown SHA-256: the digest of a byte string is a parameter, of
which only the length is known.  The renderings are those of `base-nix-32.cc` and
`base-n.cc`.
-/

namespace Archinix
namespace Util

def hashSizeSha256 : Nat := 32

/-- The bytes of a hash; a SHA-256 digest has 32 of them. -/
abbrev Hash := Bytes

/-- The hash function of the linked library. -/
class Sha256 where
  hashString : Bytes → Hash
  length_hashString : ∀ s, (hashString s).length = hashSizeSha256

export Sha256 (hashString length_hashString)

/-- The hash function known on the strings of a table. -/
@[reducible] def Sha256.ofTable (table : List (Bytes × Hash)) (h : ∀ e ∈ table, e.2.length = hashSizeSha256) :
    Sha256 where
  hashString s :=
    match table.find? (·.1 = s) with
    | some e => e.2
    | none => List.replicate hashSizeSha256 0
  length_hashString s := by
    split
    · rename_i e hfind
      exact h e (List.mem_of_find?_eq_some hfind)
    · exact List.length_replicate ..

/-- The zero-filled hash. -/
def nullHash : Hash := List.replicate hashSizeSha256 0

/-- The final hash and the number of bytes digested. -/
structure HashResult where
  hash : Hash
  numBytesDigested : Nat
  deriving DecidableEq

/-- A `HashSink` that was given `data`, finished. -/
def hashSink [Sha256] (data : Bytes) : HashResult := ⟨hashString data, data.length⟩

/-- `compressHash`: the bytes folded onto `newSize` positions by exclusive or. -/
def compressHash (hash : Hash) (newSize : Nat) : Hash :=
  (List.range hash.length).foldl
    (fun h i => h.modify (i % newSize) fun byte => byte ^^^ hash.getD i 0)
    (List.replicate newSize 0)

/-! ## Renderings -/

namespace BaseNix32

/-- Omitted: `e`, `o`, `u` and `t`. -/
def characters : Bytes := str "0123456789abcdfghijklmnpqrsvwxyz"

def encodedLength (originalLength : Nat) : Nat := (originalLength * 8 - 1) / 5 + 1

/-- The five bits of `bs` from bit `5 * n` on. -/
def digit (bs : Bytes) (n : Nat) : Nat :=
  let b := n * 5
  let i := b / 8
  let j := b % 8
  let high := if i + 1 ≥ bs.length then 0 else (bs.getD (i + 1) 0).toNat <<< (8 - j) % 256
  ((bs.getD i 0).toNat >>> j ||| high) % 32

def encode (bs : Bytes) : Bytes :=
  if bs = [] then []
  else (List.range (encodedLength bs.length)).reverse.map fun n => characters.getD (digit bs n) 0

end BaseNix32

namespace Base16

def characters : Bytes := str "0123456789abcdef"

def encode (bs : Bytes) : Bytes :=
  bs.flatMap fun byte =>
    [characters.getD (byte.toNat >>> 4) 0, characters.getD (byte.toNat &&& 0x0f) 0]

end Base16

/-- `to_string(HashFormat::Nix32, false)`. -/
def Hash.nix32 (hash : Hash) : Bytes := BaseNix32.encode hash

/-- `to_string(HashFormat::Base16, true)`. -/
def Hash.base16 (hash : Hash) : Bytes := str "sha256:" ++ Base16.encode hash

theorem length_compressHash (hash : Hash) (newSize : Nat) :
    (compressHash hash newSize).length = newSize := by
  suffices hgo : ∀ (is : List Nat) (h : Hash), h.length = newSize →
      (is.foldl (fun h i => h.modify (i % newSize) fun byte => byte ^^^ hash.getD i 0) h).length =
        newSize from hgo _ _ (List.length_replicate ..)
  intro is
  induction is with
  | nil => exact fun h hlen => hlen
  | cons i is ih => exact fun h hlen => ih _ (by rw [List.length_modify, hlen])

namespace BaseNix32

theorem length_encode {bs : Bytes} (h : bs ≠ []) : (encode bs).length = encodedLength bs.length := by
  simp [encode, h]

/-- Every character is one of the 32. -/
theorem mem_encode {bs : Bytes} {c : UInt8} (h : c ∈ encode bs) : c ∈ characters := by
  unfold encode at h
  split at h
  · cases h
  · obtain ⟨n, -, rfl⟩ := List.mem_map.mp h
    have hlt : digit bs n < characters.length := Nat.mod_lt _ (by decide)
    rw [List.getD_eq_getElem _ _ hlt]
    exact List.getElem_mem hlt

end BaseNix32

end Util
end Archinix
