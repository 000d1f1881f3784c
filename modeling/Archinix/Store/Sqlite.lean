import Archinix.Foundation.Transaction
import Archinix.Store.ContentAddress

/-!
# The store database in SQL

The tables of `schema.sql` by column, the statements prepared by `LocalStore` with what
the schema makes of them (`unique`, `autoincrement`, the foreign keys with their actions,
and the trigger `DeleteSelfRefs`), and the functions of `local-store.cc` that run them.
The texts of the store hold no NUL byte, so that `getStr` returns a column as it is.

The functions are written over `MonadDatabase`: on a connection their statements may
fail, and over the tables alone they say what a transaction computes.
-/

namespace Archinix
namespace Store
namespace Sqlite

open Foundation Util

/-- A row of `ValidPaths`. -/
structure Row where
  id : Nat
  path : Bytes
  hash : Bytes
  registrationTime : Int
  narSize : Option Int
  ca : Option Bytes
  deriving DecidableEq

structure Tables where
  validPaths : List Row
  /-- `Refs`: referrer and reference. -/
  refs : List (Nat × Nat)
  /-- The largest id `autoincrement` has given out. -/
  sequence : Nat
  deriving DecidableEq

/-- A statement with its answer. -/
abbrev Statement (α : Type) := Tables → Except Error (α × Tables)

def sqliteError (msg : String) : Error := ⟨.sqliteError, msg, []⟩

/-! ## Statements -/

namespace Tables

variable (t : Tables)

/-- The tables of a new store. -/
def empty : Tables := ⟨[], [], 0⟩

/-- The id of the next row. -/
def newId : Nat := (t.validPaths.map (·.id)).foldr max t.sequence + 1

/-- `QueryPathInfo`. -/
def queryPathInfo (path : Bytes) : Option Row := t.validPaths.find? (·.path = path)

/-- `QueryReferences`. -/
def queryReferences (id : Nat) : List Bytes :=
  (t.refs.filter (·.1 = id)).flatMap fun e => (t.validPaths.filter (·.id = e.2)).map (·.path)

/-- `QueryReferrers`; the sub-query of a path without a row is `NULL`. -/
def queryReferrers (path : Bytes) : List Bytes :=
  match t.queryPathInfo path with
  | none => []
  | some row =>
      (t.refs.filter (·.2 = row.id)).flatMap fun e => (t.validPaths.filter (·.id = e.1)).map (·.path)

/-- `QueryPathsByHashPrefix`: in the byte order of the `binary` collation. -/
def queryPathsFrom (first : Bytes) : List Bytes :=
  ((t.validPaths.map (·.path)).filter (first ≤ ·)).mergeSort (· ≤ ·)

/-- `QueryValidPaths`. -/
def queryValidPaths : List Bytes := t.validPaths.map (·.path)

end Tables

/-- `RegisterValidPath`. -/
def insertValidPath (path hash : Bytes) (registrationTime : Int) (narSize : Option Int)
    (ca : Option Bytes) : Statement Unit := fun t =>
  if path ∈ t.validPaths.map (·.path) then
    .error (sqliteError "UNIQUE constraint failed: ValidPaths.path")
  else
    .ok ((), { t with
      validPaths := t.validPaths ++ [⟨t.newId, path, hash, registrationTime, narSize, ca⟩]
      sequence := t.newId })

/-- `UpdatePathInfo`. -/
def updateValidPath (narSize : Option Int) (hash : Bytes) (ca : Option Bytes) (path : Bytes) :
    Statement Unit := fun t =>
  .ok ((), { t with
    validPaths := t.validPaths.map fun row =>
      if row.path = path then { row with narSize := narSize, hash := hash, ca := ca } else row })

/-- `AddReference`: `insert or replace`, after which both ends have to be rows. -/
def insertReference (referrer reference : Nat) : Statement Unit := fun t =>
  if referrer ∈ t.validPaths.map (·.id) ∧ reference ∈ t.validPaths.map (·.id) then
    .ok ((), { t with refs := t.refs.filter (· ≠ (referrer, reference)) ++ [(referrer, reference)] })
  else .error (sqliteError "FOREIGN KEY constraint failed")

/-- `InvalidatePath`. -/
def deleteValidPath (path : Bytes) : Statement Unit := fun t =>
  match t.queryPathInfo path with
  | none => .ok ((), t)
  | some row =>
      -- the trigger comes before the delete
      let refs := t.refs.filter (· ≠ (row.id, row.id))
      -- `on delete restrict`
      if row.id ∈ refs.map (·.2) then .error (sqliteError "FOREIGN KEY constraint failed")
      else
        .ok ((), { t with
          validPaths := t.validPaths.filter (·.path ≠ path)
          -- `on delete cascade`
          refs := refs.filter (·.1 ≠ row.id) })

/-! ## Columns -/

/-- A `uint64_t` bound as an `int64_t`. -/
def toInt64 (n : Nat) : Int := if n < 2 ^ 63 then n else (n : Int) - 2 ^ 64

/-- An `int64_t` assigned to a `uint64_t`. -/
def toUInt64 (i : Int) : Nat := (i % 2 ^ 64).toNat

theorem toUInt64_toInt64 {n : Nat} (h : n < 2 ^ 64) : toUInt64 (toInt64 n) = n := by
  unfold toUInt64 toInt64
  split <;> omega

/-- The `narSize` column of an info. -/
def narSizeColumn (info : ValidPathInfo) : Option Int :=
  if info.narSize ≠ 0 then some (toInt64 info.narSize) else none

/-- The `ca` column of an info. -/
def caColumn (info : ValidPathInfo) : Option Bytes :=
  if info.ca.isSome then some (renderContentAddress info.ca) else none

/-! ## Functions -/

section Functions

variable {m : Type → Type} [MonadDatabase Tables Error m] (cfg : StoreDirConfig)

def isValidPath_ (path : StorePath) : m Bool := do
  let row ← query (·.queryPathInfo (cfg.printStorePath path))
  return row.isSome

def queryValidPathId (path : StorePath) : m Nat := do
  match ← query (·.queryPathInfo (cfg.printStorePath path)) with
  | some row => return row.id
  | none => raise ⟨.invalidPath, "path '%s' is not valid", [cfg.printStorePath path]⟩

def notContentAddressed (path : StorePath) : Error :=
  ⟨.error, "cannot add path '%s' to the Nix store because it claims to be content-addressed but isn't",
    [cfg.printStorePath path]⟩

/-- `addValidPath`, when the clock shows `now`. -/
def addValidPath [Sha256] (now : Int) (info : ValidPathInfo) : m Unit := do
  if info.ca.isSome then
    match info.isContentAddressed cfg with
    | .ok true => pure ()
    | .ok false => raise (notContentAddressed cfg info.path)
    | .error e => raise e
  perform (insertValidPath (cfg.printStorePath info.path) info.narHash.base16
    (if info.registrationTime = 0 then now else info.registrationTime)
    (narSizeColumn info) (caColumn info))

def updatePathInfo (info : ValidPathInfo) : m Unit :=
  perform (updateValidPath (narSizeColumn info) info.narHash.base16 (caColumn info)
    (cfg.printStorePath info.path))

/-- The `Refs` rows of an info. -/
def addReferences (info : ValidPathInfo) : m Unit := do
  if info.references ≠ [] then
    let referrer ← queryValidPathId cfg info.path
    info.references.forM fun j => do
      let reference ← queryValidPathId cfg j
      perform (insertReference referrer reference)

/-- What `registerValidPath` does between `begin` and `commit`. -/
def registerTransaction [Sha256] (now : Int) (info : ValidPathInfo) : m Unit := do
  if ← isValidPath_ cfg info.path then updatePathInfo cfg info
  else addValidPath cfg now info
  addReferences cfg info

/-- Parse the paths of a result into a set. -/
def insertPaths : List Bytes → List StorePath → m (List StorePath)
  | [], paths => return paths
  | path :: rest, paths => do
      match cfg.parseStorePath path with
      | .ok p => insertPaths rest (insertStorePath p paths)
      | .error e => raise e

/-- The rows of a result up to the first one outside a prefix. -/
def insertWhilePrefix (start : Bytes) : List Bytes → List StorePath → m (List StorePath)
  | [], res => return res
  | path :: rest, res =>
      if start.isPrefixOf path then
        match cfg.parseStorePath path with
        | .ok p => insertWhilePrefix start rest (insertStorePath p res)
        | .error e => raise e
      else return res

/-- What `queryPathsByHashPrefix` retries. -/
def pathsByHashPrefix (hashPrefix : Bytes) : m (List StorePath) := do
  let start := CanonPath.abs cfg.storeDir ++ str "/" ++ hashPrefix
  insertWhilePrefix cfg start (← query (·.queryPathsFrom start)) []

/-- What `queryAllValidPaths` retries. -/
def allValidPaths : m (List StorePath) := do
  insertPaths cfg (← query (·.queryValidPaths)) []

def queryReferrers (path : StorePath) : m (List StorePath) := do
  insertPaths cfg (← query (·.queryReferrers (cfg.printStorePath path))) []

def invalidatePath (path : StorePath) : m Unit :=
  perform (deleteValidPath (cfg.printStorePath path))

/-- `PathInUse`, with the referrers in its message. -/
def pathInUse (path : StorePath) (referrers : List StorePath) : Error :=
  ⟨.pathInUse, "cannot delete path '%s' because it is in use by %s",
    [cfg.printStorePath path,
      (str ", ").intercalate (referrers.map fun p => str "'" ++ cfg.printStorePath p ++ str "'")]⟩

/-- What `invalidatePathChecked` does between `begin` and `commit`. -/
def invalidateTransaction (path : StorePath) : m Unit := do
  if ← isValidPath_ cfg path then
    let referrers := (← queryReferrers cfg path).filter (· ≠ path)
    if referrers ≠ [] then
      raise (pathInUse cfg path referrers)
    invalidatePath cfg path

/-- The `hash` column parsed. -/
def parseNarHash (path : StorePath) (hash : Bytes) : Except Error Hash :=
  match Hash.parseAnyPrefixed hash with
  | .ok narHash => .ok narHash
  | .error e =>
      if e.cls = .badHash then
        .error ⟨.error, "invalid-path entry for '%s': " ++ e.fmt, cfg.printStorePath path :: e.args⟩
      else .error e

/-- Throw what a parser throws. -/
def lift {α : Type} (r : Except Error α) : m α :=
  match r with
  | .ok a => pure a
  | .error e => raise e

def queryPathInfoInternal (path : StorePath) : m (Option ValidPathInfo) := do
  match ← query (·.queryPathInfo (cfg.printStorePath path)) with
  | none => return none
  | some row =>
      let narHash ← lift (parseNarHash cfg path row.hash)
      let ca ←
        match row.ca with
        | some s => lift (ContentAddress.parseOpt s)
        | none => pure none
      let references ← insertPaths cfg (← query (·.queryReferences row.id)) []
      return some
        { path := path
          narHash := narHash
          references := references
          registrationTime := row.registrationTime
          -- `NULL` reads as 0
          narSize := toUInt64 (row.narSize.getD 0)
          ca := ca }

end Functions

/-- Code of `LocalStore` on its connection. -/
abbrev Action := Sql Tables Error

section LocalStore

variable (cfg : StoreDirConfig)

def registerValidPath [Sha256] (now : Int) (info : ValidPathInfo) : Action Unit :=
  Sql.retry (Sql.transaction (registerTransaction cfg now info))

def invalidatePathChecked (path : StorePath) : Action Unit :=
  Sql.retry (Sql.transaction (invalidateTransaction cfg path))

/-- `queryPathInfoUnchecked`. -/
def queryPathInfo (path : StorePath) : Action (Option ValidPathInfo) :=
  Sql.retry (queryPathInfoInternal cfg path)

/-- `isValidPath`, of a path that the constructor of store paths has let through. -/
def isValidPath (path : Constructed) : Action Bool :=
  Sql.retry do
    let row ← query (·.queryPathInfo (path.print cfg))
    return row.isSome

def queryPathsByHashPrefix (hashPrefix : Bytes) : Action (List StorePath) :=
  if hashPrefix = [] ∨ hashPrefix.length > HashLen then
    raise ⟨.error, "invalid hash prefix '%s'", [hashPrefix]⟩
  else Sql.retry (pathsByHashPrefix cfg hashPrefix)

def queryAllValidPaths : Action (List StorePath) := Sql.retry (allValidPaths cfg)

end LocalStore

end Sqlite
end Store
end Archinix
