import Archinix.Store.StorePath
import Archinix.Util.Hash

/-!
# The grammar of store paths

What the constructors of `StorePath` accept, `makeStorePath`, and how far the names
they accept have one spelling.  The constructor from a base name looks at the hash and
at the name but not at the character between them.

`oneSpelling_iff` says on which strings this makes no difference.
-/

namespace Archinix
namespace Store

open Util

/-! ## The constructor from a base name -/

/-- A `StorePath` as its constructor leaves it: unlike `Store.StorePath`, it may have a
slash right after the hash. -/
structure Constructed where
  baseName : Bytes
  valid : checkBaseName baseName = .ok ()

namespace Constructed

/-- `StorePath::StorePath(std::string_view)`. -/
def ofString (baseName : Bytes) : Except Error Constructed :=
  match h : checkBaseName baseName with
  | .ok () => .ok ⟨baseName, h⟩
  | .error e => .error e

def to_string (p : Constructed) : Bytes := p.baseName

def name (p : Constructed) : Bytes := p.baseName.drop (HashLen + 1)

def hashPart (p : Constructed) : Bytes := p.baseName.take HashLen

/-- `printStorePath`. -/
def print (cfg : StoreDirConfig) (p : Constructed) : Bytes :=
  CanonPath.abs cfg.storeDir ++ str "/" ++ p.to_string

theorem ofString_eq_ok {s : Bytes} {p : Constructed} :
    ofString s = .ok p ↔ p.baseName = s := by
  unfold ofString
  constructor
  · intro h
    split at h
    · cases h
      rfl
    · cases h
  · rintro rfl
    split
    · rfl
    · rename_i e he
      rw [p.valid] at he
      cases he

theorem exists_ofString_iff {s : Bytes} :
    (∃ p, ofString s = .ok p) ↔ checkBaseName s = .ok () := by
  simp only [ofString_eq_ok]
  constructor
  · rintro ⟨p, rfl⟩
    exact p.valid
  · exact fun h => ⟨⟨s, h⟩, rfl⟩

end Constructed

/-! ## What the checks accept -/

section Checks

variable {s name hash : Bytes}

theorem checkHashPart_eq_ok :
    checkHashPart s = .ok () ↔ ∀ c ∈ s.take HashLen, isHashChar c = true := by
  unfold checkHashPart
  rcases hfind : (s.take HashLen).find? fun c => !isHashChar c with - | bad
  · have hall : ∀ c ∈ s.take HashLen, isHashChar c = true := by simpa using hfind
    exact ⟨fun _ => hall, fun _ => rfl⟩
  · have hbad := List.find?_some hfind
    have hmem := List.mem_of_find?_eq_some hfind
    constructor
    · intro h
      cases h
    · intro h
      rw [h bad hmem] at hbad
      cases hbad

theorem checkPathName_eq_ok {path : Bytes} :
    checkPathName path name = .ok () ↔ checkName name = .ok () := by
  unfold checkPathName
  rcases hname : checkName name with e | _
  · simp [checkName_error hname]
  · simp

theorem checkBaseName_eq_ok : checkBaseName s = .ok () ↔
    HashLen + 1 ≤ s.length ∧ (∀ c ∈ s.take HashLen, isHashChar c = true) ∧
      checkName (s.drop (HashLen + 1)) = .ok () := by
  unfold checkBaseName
  split
  · rename_i hshort
    simp only [reduceCtorEq, false_iff, not_and]
    omega
  · rename_i hlong
    have hname : checkPathName s (s.drop (HashLen + 1)) = .ok () ↔
        checkName (s.drop (HashLen + 1)) = .ok () := checkPathName_eq_ok
    rw [← checkHashPart_eq_ok, ← hname]
    have hlen : HashLen + 1 ≤ s.length := Nat.not_lt.mp hlong
    rcases hhash : checkHashPart s with e | _
    · constructor
      · intro h
        cases h
      · rintro ⟨-, h, -⟩
        cases h
    · exact ⟨fun h => ⟨hlen, rfl, h⟩, fun h => h.2.2⟩

/-- An accepted name has only the characters of names. -/
theorem isNameChar_of_checkName (h : checkName name = .ok ()) {c : UInt8} (hc : c ∈ name) :
    isNameChar c = true := by
  unfold checkName at h
  split at h
  · cases h
  split at h
  · cases h
  rcases hdots : checkDots name with e | _
  · rw [hdots] at h
    cases h
  · rw [hdots] at h
    change checkChars name = .ok () at h
    unfold checkChars at h
    split at h
    · cases h
    · rename_i hnone
      simpa using List.find?_eq_none.mp hnone c hc

/-- The base-32 characters are those of the alphabet. -/
theorem isHashChar_iff {c : UInt8} : isHashChar c = true ↔ c ∈ BaseNix32.characters := by
  have hall : ∀ n : Fin 256, isHashChar (UInt8.ofNat n) = true ↔
      UInt8.ofNat n ∈ BaseNix32.characters := by decide +kernel
  have hc := hall ⟨c.toNat, c.toNat_lt⟩
  rwa [UInt8.ofNat_toNat] at hc

/-- 32 base-32 characters, a byte, and an accepted name. -/
def Spelled (separator : UInt8) (s : Bytes) : Prop :=
  ∃ hash name, s = hash ++ separator :: name ∧ hash.length = HashLen ∧
    (∀ c ∈ hash, c ∈ BaseNix32.characters) ∧ checkName name = .ok ()

theorem checkBaseName_iff_spelled : checkBaseName s = .ok () ↔ ∃ c, Spelled c s := by
  rw [checkBaseName_eq_ok]
  constructor
  · rintro ⟨hlen, hhash, hname⟩
    have hlt : HashLen < s.length := hlen
    refine ⟨s[HashLen], s.take HashLen, s.drop (HashLen + 1), ?_, ?_, ?_, hname⟩
    · rw [List.getElem_cons_drop, List.take_append_drop]
    · rw [List.length_take]
      omega
    · exact fun c hc => isHashChar_iff.mp (hhash c hc)
  · rintro ⟨c, hash, name, rfl, hlen, hhash, hname⟩
    refine ⟨?_, ?_, ?_⟩
    · simp [hlen]
    · rw [List.take_left' hlen]
      exact fun c hc => isHashChar_iff.mpr (hhash c hc)
    · rwa [show hash ++ c :: name = (hash ++ [c]) ++ name by simp,
        List.drop_left' (by simp [hlen])]

theorem noSlash_of_spelled {c : UInt8} (h : Spelled c s) (hc : c ≠ 47) : (47 : UInt8) ∉ s := by
  obtain ⟨hash, name, rfl, -, hhash, hname⟩ := h
  have hslash : (47 : UInt8) ∉ BaseNix32.characters := by decide
  have hmemHash : (47 : UInt8) ∉ hash := fun h => hslash (hhash _ h)
  have hmemName : (47 : UInt8) ∉ name := fun h => by
    have hchar := isNameChar_of_checkName hname h
    revert hchar
    decide
  simp [hmemHash, hmemName, Ne.symm hc]

end Checks

/-! ## The constructor from a hash -/

/-- The bytes of a hash in a store path. -/
def storePathHashSize : Nat := 20

/-- The base name made of a hash and a name. -/
def hashedName (hash : Hash) (name : Bytes) : Bytes := hash.nix32 ++ str "-" ++ name

theorem hashedName_spelled {hash : Hash} (hlen : hash.length = storePathHashSize) {name : Bytes}
    (h : checkName name = .ok ()) : Spelled 45 (hashedName hash name) := by
  have hne : hash ≠ [] := by
    rintro rfl
    cases hlen
  refine ⟨hash.nix32, name, ?_, ?_, fun c hc => BaseNix32.mem_encode hc, h⟩
  · rw [hashedName, List.append_assoc]
    rfl
  · show (BaseNix32.encode hash).length = HashLen
    rw [BaseNix32.length_encode hne, hlen]
    rfl

theorem drop_hashedName {hash : Hash} (hlen : hash.length = storePathHashSize) (name : Bytes) :
    (hashedName hash name).drop (HashLen + 1) = name := by
  have hne : hash ≠ [] := by
    rintro rfl
    cases hlen
  apply List.drop_left'
  rw [List.length_append, show hash.nix32 = BaseNix32.encode hash from rfl,
    BaseNix32.length_encode hne, hlen]
  rfl

namespace StorePath

/-- `StorePath::StorePath(const Hash &, std::string_view)`. -/
def ofHash (hash : Hash) (hlen : hash.length = storePathHashSize) (name : Bytes) :
    Except Error StorePath :=
  match h : checkPathName (hashedName hash name) ((hashedName hash name).drop (HashLen + 1)) with
  | .ok () =>
      have hname : checkName name = .ok () := by
        rw [drop_hashedName hlen] at h
        exact checkPathName_eq_ok.mp h
      have hspelled := hashedName_spelled hlen hname
      .ok ⟨hashedName hash name, checkBaseName_iff_spelled.mpr ⟨_, hspelled⟩,
        noSlash_of_spelled hspelled (by decide)⟩
  | .error e => .error e

theorem ofHash_of_checkName {hash : Hash} (hlen : hash.length = storePathHashSize) {name : Bytes}
    (h : checkName name = .ok ()) :
    ∃ p, ofHash hash hlen name = .ok p ∧ p.baseName = hashedName hash name := by
  unfold ofHash
  split
  · exact ⟨_, rfl, rfl⟩
  · rename_i e he
    rw [drop_hashedName hlen, checkPathName_eq_ok.mpr h] at he
    cases he

end StorePath

namespace StoreDirConfig

variable [Sha256] (cfg : StoreDirConfig)

def makeStorePath (type hash name : Bytes) : Except Error StorePath :=
  let s := type ++ str ":" ++ hash ++ str ":" ++ CanonPath.abs cfg.storeDir ++ str ":" ++ name
  let h := compressHash (hashString s) storePathHashSize
  StorePath.ofHash h (length_compressHash _ _) name

def makeContentAddressedPath (name : Bytes) (narHash : Hash) : Except Error StorePath :=
  cfg.makeStorePath (str "source") narHash.base16 name

theorem name_of_makeStorePath {type hash name : Bytes} {p : StorePath}
    (h : cfg.makeStorePath type hash name = .ok p) : p.name = name := by
  rw [makeStorePath, StorePath.ofHash] at h
  split at h
  · obtain rfl := Except.ok.inj h
    exact drop_hashedName (length_compressHash _ _) name
  · cases h

theorem makeStorePath_of_checkName (type hash : Bytes) {name : Bytes} (h : checkName name = .ok ()) :
    ∃ p, cfg.makeStorePath type hash name = .ok p ∧ Spelled 45 p.baseName ∧ p.name = name := by
  obtain ⟨p, hp, hbase⟩ := StorePath.ofHash_of_checkName (length_compressHash (hashString
    (type ++ str ":" ++ hash ++ str ":" ++ CanonPath.abs cfg.storeDir ++ str ":" ++ name))
    storePathHashSize) h
  refine ⟨p, hp, ?_, ?_⟩
  · rw [hbase]
    exact hashedName_spelled (length_compressHash _ _) h
  · rw [StorePath.name, hbase]
    exact drop_hashedName (length_compressHash _ _) name

end StoreDirConfig

/-! ## One spelling -/

section OneSpelling

variable (cfg : StoreDirConfig) {s : Bytes}

/-- One grammar and one spelling, for the string `s`. -/
structure OneSpelling (s : Bytes) : Prop where
  grammar : (∃ p, Constructed.ofString s = .ok p) ↔ Spelled 45 s
  spelled : ∀ p, Constructed.ofString s = .ok p → p.to_string = p.hashPart ++ str "-" ++ p.name
  parsed : ∀ p, Constructed.ofString s = .ok p →
    ∃ q, cfg.parseStorePath (p.print cfg) = .ok q ∧ q.baseName = p.baseName

/-- What `makeStorePath` yields. -/
def MakesSpelled [Sha256] : Prop :=
  ∀ (type : Bytes) (hash : Hash) (name : Bytes), hash.length = hashSizeSha256 →
    checkName name = .ok () → ∃ p, cfg.makeStorePath type hash.base16 name = .ok p ∧
      Spelled 45 p.baseName ∧ p.name = name

theorem Spelled.separator_unique {c d : UInt8} (hc : Spelled c s) (hd : Spelled d s) : c = d := by
  obtain ⟨hash, name, rfl, hlen, -⟩ := hc
  obtain ⟨hash', name', heq, hlen', -⟩ := hd
  have htail := (List.append_inj heq (hlen.trans hlen'.symm)).2
  exact (List.cons.inj htail).1

theorem Spelled.to_string_eq {p : Constructed} {c : UInt8} (h : Spelled c p.baseName) :
    p.to_string = p.hashPart ++ c :: p.name := by
  obtain ⟨hash, name, heq, hlen, -⟩ := h
  have hhash : p.hashPart = hash := by
    rw [Constructed.hashPart, heq]
    exact List.take_left' hlen
  have hname : p.name = name := by
    rw [Constructed.name, heq, show hash ++ c :: name = (hash ++ [c]) ++ name by simp]
    exact List.drop_left' (by simp [hlen])
  rw [hhash, hname]
  exact heq

theorem oneSpelling_spec : OneSpelling cfg s ↔ ∀ c, Spelled c s → c = 45 := by
  constructor
  · intro h c hc
    have hdash := h.grammar.mp (Constructed.exists_ofString_iff.mpr
      (checkBaseName_iff_spelled.mpr ⟨c, hc⟩))
    exact hc.separator_unique hdash
  · intro h
    have hspelled : ∀ p, Constructed.ofString s = .ok p → Spelled 45 p.baseName := by
      intro p hp
      obtain ⟨c, hc⟩ := checkBaseName_iff_spelled.mp p.valid
      rw [Constructed.ofString_eq_ok.mp hp] at hc ⊢
      rwa [h c hc] at hc
    refine ⟨?_, fun p hp => ?_, fun p hp => ?_⟩
    · constructor
      · rintro ⟨p, hp⟩
        have hp' := hspelled p hp
        rwa [Constructed.ofString_eq_ok.mp hp] at hp'
      · exact fun hs => Constructed.exists_ofString_iff.mpr
          (checkBaseName_iff_spelled.mpr ⟨45, hs⟩)
    · rw [(hspelled p hp).to_string_eq, List.append_assoc]
      rfl
    · let q : StorePath := ⟨p.baseName, p.valid, noSlash_of_spelled (hspelled p hp) (by decide)⟩
      exact ⟨q, cfg.parseStorePath_printStorePath q, rfl⟩

/-- Store paths have one grammar and one spelling on exactly the strings that are not
a hash, a byte other than a dash, and a name. -/
theorem oneSpelling_iff [Sha256] (cfg : StoreDirConfig) (s : Bytes) :
    OneSpelling cfg s ∧ MakesSpelled cfg ↔ ¬ ∃ c, c ≠ 45 ∧ Spelled c s := by
  have hmakes : MakesSpelled cfg := fun type hash name _ hname =>
    cfg.makeStorePath_of_checkName type hash.base16 hname
  rw [oneSpelling_spec]
  constructor
  · rintro ⟨h, -⟩ ⟨c, hne, hc⟩
    exact hne (h c hc)
  · intro h
    exact ⟨fun c hc => by_contra fun hne => h ⟨c, hne, hc⟩, hmakes⟩

/-- A hash and a name joined by an underscore are accepted. -/
theorem oneSpelling_fails : ∃ cfg : StoreDirConfig,
    (∃ p, Constructed.ofString (str "ffffffffffffffffffffffffffffffff_x") = .ok p) ∧
      ¬ OneSpelling cfg (str "ffffffffffffffffffffffffffffffff_x") := by
  refine ⟨.nixStore, ?_, fun h => ?_⟩
  · exact Constructed.exists_ofString_iff.mpr (by decide)
  · obtain ⟨p, hp⟩ := Constructed.exists_ofString_iff.mpr
      (show checkBaseName (str "ffffffffffffffffffffffffffffffff_x") = .ok () by decide)
    have hbase := Constructed.ofString_eq_ok.mp hp
    have hspelled := h.spelled p hp
    rw [Constructed.to_string, Constructed.hashPart, Constructed.name, hbase] at hspelled
    revert hspelled
    decide

end OneSpelling

end Store
end Archinix
