import Archinix.Store.Database
import Archinix.Store.MakeStorePath
import Archinix.Util.HashText

/-!
# Content addresses

`content-address.cc`, and the check of `path-info.cc` that a content address is the one
of its path.
-/

namespace Archinix
namespace Store

open Util

namespace ContentAddress

def caPrefix : Bytes := str "fixed:r:"

/-- `ContentAddress::render`. -/
def render (hash : Hash) : Bytes := caPrefix ++ (str "sha256:" ++ hash.nix32)

def parse (rawCa : Bytes) : Except Error Hash :=
  if caPrefix.isPrefixOf rawCa then Hash.parseAnyPrefixed (rawCa.drop caPrefix.length)
  else .error ⟨.error, "content address '%s' is not a recursive NAR address ('%s')",
    [rawCa, caPrefix]⟩

def parseOpt (rawCaOpt : Bytes) : Except Error (Option Hash) :=
  if rawCaOpt = [] then .ok none else (parse rawCaOpt).map some

theorem parseOpt_render {hash : Hash} (h : hash.length = hashSizeSha256) :
    parseOpt (render hash) = .ok (some hash) := by
  have hne : render hash ≠ [] := by simp [render, caPrefix, str]
  rw [parseOpt, if_neg hne, parse, if_pos (by simp [render]), render, List.drop_left,
    parseAnyPrefixed_nix32 h]
  rfl

end ContentAddress

/-- `renderContentAddress`. -/
def renderContentAddress (ca : Option Hash) : Bytes :=
  match ca with
  | some hash => ContentAddress.render hash
  | none => []

/-- `ValidPathInfo::isContentAddressed`. -/
def ValidPathInfo.isContentAddressed [Sha256] (info : ValidPathInfo) (cfg : StoreDirConfig) :
    Except Error Bool :=
  match info.ca with
  | none => .ok false
  | some hash => (cfg.makeContentAddressedPath info.path.name hash).map (· = info.path)

/-- The content address of an info, if it has one, is the one of its path. -/
def ValidPathInfo.CaConsistent [Sha256] (info : ValidPathInfo) (cfg : StoreDirConfig) : Prop :=
  ∀ hash, info.ca = some hash →
    cfg.makeContentAddressedPath info.path.name hash = .ok info.path

/-- The check throws nothing: the name of a store path is an accepted one. -/
theorem ValidPathInfo.isContentAddressed_eq [Sha256] (info : ValidPathInfo)
    (cfg : StoreDirConfig) :
    ∃ b, info.isContentAddressed cfg = .ok b ∧
      (info.ca.isSome → (b = true ↔ info.CaConsistent cfg)) := by
  unfold isContentAddressed CaConsistent
  rcases info.ca with - | hash
  · exact ⟨false, rfl, by simp⟩
  · have hname : checkName info.path.name = .ok () := (checkBaseName_eq_ok.mp info.path.valid).2.2
    obtain ⟨p, hp, -⟩ := cfg.makeStorePath_of_checkName (str "source") hash.base16 hname
    have hmake : cfg.makeContentAddressedPath info.path.name hash = .ok p := hp
    refine ⟨decide (p = info.path), by simp [hmake, Except.map], fun _ => ?_⟩
    simp [hmake]

end Store
end Archinix
