import Archinix.Foundation.Recency
import Archinix.Util.LRUCache

/-!
# The nodes of the least-recently-used cache

`LRUCache` of `lru-cache.hh` with the nodes of its two containers: those of the map hold
an iterator of the list, those of the list an iterator of the map.  An iterator is the
address of its node, and using one whose node is gone is undefined, as is a failing
assertion: an operation that comes to either has no result.

`upsert_linked`, `get_linked`: the operations always have one, and keep the two containers
linked; what they do is what those of `LRUCache` do.
-/

namespace Archinix
namespace Util

open Foundation

/-- A node of `Data`, the map from a key to a pair of iterator and value. -/
structure DataNode (κ ν : Type) where
  addr : Nat
  key : κ
  /-- `LRUIterator::it`: no node for the iterator that `LRUIterator()` holds. -/
  it : Option Nat
  value : ν

/-- A node of `LRU`, the list of iterators of `Data`. -/
structure LRUNode where
  addr : Nat
  target : Nat

/-- Where a new node is put, given the addresses of those that are there. -/
structure Allocator where
  node : List Nat → Nat
  fresh : ∀ used, node used ∉ used

/-- Behind all others. -/
instance : Inhabited Allocator where
  default :=
    { node := fun used => used.max?.getD 0 + 1
      fresh := fun used hmem => by
        have hle : used.max?.getD 0 + 1 ≤ used.max?.getD 0 := List.le_max?_getD_of_mem hmem
        omega }

/-- The node of an iterator, and the others in their order. -/
def unlink {α : Type} (addr : α → Nat) (it : Nat) (nodes : List α) : Option (α × List α) :=
  (nodes.find? (addr · = it)).map fun node => (node, nodes.eraseP (addr · = it))

structure LinkedLRUCache (κ ν : Type) where
  capacity : Nat
  /-- The order of the nodes of a map is that of their keys and is not recorded. -/
  data : List (DataNode κ ν)
  lru : List LRUNode

namespace LinkedLRUCache

variable {κ ν : Type}

/-- `LRUCache(capacity)`. -/
def make (capacity : Nat) : LinkedLRUCache κ ν := ⟨capacity, [], []⟩

def size (c : LinkedLRUCache κ ν) : Nat := c.data.length

def clear (c : LinkedLRUCache κ ν) : LinkedLRUCache κ ν := { c with data := [], lru := [] }

/-- `lru.splice(lru.end(), lru, it)`: the node itself is moved behind the others. -/
def promote (it : Option Nat) (c : LinkedLRUCache κ ν) : Option (LinkedLRUCache κ ν) := do
  let it ← it
  let (node, others) ← unlink LRUNode.addr it c.lru
  some { c with lru := others ++ [node] }

/-- `lru.erase(it)`. -/
def eraseLru (it : Option Nat) (c : LinkedLRUCache κ ν) : Option (LinkedLRUCache κ ν) := do
  let it ← it
  let (_, others) ← unlink LRUNode.addr it c.lru
  some { c with lru := others }

/-- `data.erase(i)`. -/
def eraseData (i : Nat) (c : LinkedLRUCache κ ν) : Option (LinkedLRUCache κ ν) := do
  let (_, others) ← unlink DataNode.addr i c.data
  some { c with data := others }

/-- `lru.insert(lru.end(), i)`: the node's address, which is its iterator. -/
def insertLru (alloc : Allocator) (i : Nat) (c : LinkedLRUCache κ ν) : Nat × LinkedLRUCache κ ν :=
  let addr := alloc.node (c.lru.map LRUNode.addr)
  (addr, { c with lru := c.lru ++ [⟨addr, i⟩] })

/-- `i->second.first.it = j`. -/
def setIt (i j : Nat) (c : LinkedLRUCache κ ν) : LinkedLRUCache κ ν :=
  { c with data := c.data.map fun d => if d.addr = i then { d with it := some j } else d }

/-- Retire the oldest item, in `upsert`; a list without nodes has no oldest one. -/
def retireOldest (c : LinkedLRUCache κ ν) : Option (LinkedLRUCache κ ν) := do
  let oldest ← c.lru.head?
  let c ← c.eraseData oldest.target
  c.eraseLru (some oldest.addr)

/-- The guard of `upsert` on the size. -/
def retire (c : LinkedLRUCache κ ν) : Option (LinkedLRUCache κ ν) :=
  if c.capacity ≤ c.data.length then c.retireOldest else some c

section Keys

variable [DecidableEq κ]

/-- `data.find(key)`. -/
def find (key : κ) (c : LinkedLRUCache κ ν) : Option (DataNode κ ν) := c.data.find? (·.key = key)

/-- `data.emplace(key, std::make_pair(LRUIterator(), value))`: the node's address, when the
key is new. -/
def emplace (alloc : Allocator) (key : κ) (value : ν) (c : LinkedLRUCache κ ν) :
    Option (Nat × LinkedLRUCache κ ν) :=
  match c.find key with
  | some _ => none
  | none =>
      let addr := alloc.node (c.data.map DataNode.addr)
      some (addr, { c with data := ⟨addr, key, none, value⟩ :: c.data })

def erase (key : κ) (c : LinkedLRUCache κ ν) : Option (Bool × LinkedLRUCache κ ν) :=
  match c.find key with
  | none => some (false, c)
  | some i => do
      let c ← c.eraseLru i.it
      let c ← c.eraseData i.addr
      some (true, c)

/-- The part of `upsert` that inserts. -/
def insert (dataAlloc lruAlloc : Allocator) (key : κ) (value : ν) (c : LinkedLRUCache κ ν) :
    Option (LinkedLRUCache κ ν) := do
  let (i, c) ← c.emplace dataAlloc key value
  let (j, c) := c.insertLru lruAlloc i
  some (c.setIt i j)

def upsert (dataAlloc lruAlloc : Allocator) (key : κ) (value : ν) (c : LinkedLRUCache κ ν) :
    Option (LinkedLRUCache κ ν) :=
  if c.capacity = 0 then some c
  else do
    let (_, c) ← c.erase key
    let c ← c.retire
    c.insert dataAlloc lruAlloc key value

def get (key : κ) (c : LinkedLRUCache κ ν) : Option (Option ν × LinkedLRUCache κ ν) :=
  match c.find key with
  | none => some (none, c)
  | some i => do
      let c ← c.promote i.it
      some (some i.value, c)

end Keys

section Unlink

variable {α : Type} {addr : α → Nat} {x : α}

theorem unlink_append {before after : List α} (h : ((before ++ x :: after).map addr).Nodup) :
    unlink addr (addr x) (before ++ x :: after) = some (x, before ++ after) := by
  rw [unlink, find?_of_nodup h (by simp), eraseP_of_nodup h]
  rfl

theorem unlink_perm {nodes others : List α} (hperm : nodes.Perm (x :: others))
    (h : (nodes.map addr).Nodup) :
    ∃ rest, unlink addr (addr x) nodes = some (x, rest) ∧ rest.Perm others := by
  have hmem : x ∈ nodes := hperm.mem_iff.2 List.mem_cons_self
  obtain ⟨before, after, rfl⟩ := List.append_of_mem hmem
  have hrest : (x :: (before ++ after)).Perm (x :: others) := List.perm_middle.symm.trans hperm
  exact ⟨before ++ after, unlink_append h, hrest.cons_inv⟩

end Unlink

/-- An entry with the addresses of its two nodes. -/
structure Row (κ ν : Type) where
  dataAddr : Nat
  lruAddr : Nat
  key : κ
  value : ν

namespace Row

def dataNode (r : Row κ ν) : DataNode κ ν := ⟨r.dataAddr, r.key, some r.lruAddr, r.value⟩

def lruNode (r : Row κ ν) : LRUNode := ⟨r.lruAddr, r.dataAddr⟩

def entry (r : Row κ ν) : κ × ν := (r.key, r.value)

end Row

theorem map_addr_dataNode (rows : List (Row κ ν)) :
    (rows.map Row.dataNode).map DataNode.addr = rows.map Row.dataAddr := by
  rw [List.map_map]
  rfl

theorem map_addr_lruNode (rows : List (Row κ ν)) :
    (rows.map Row.lruNode).map LRUNode.addr = rows.map Row.lruAddr := by
  rw [List.map_map]
  rfl

theorem map_key_dataNode (rows : List (Row κ ν)) :
    (rows.map Row.dataNode).map DataNode.key = rows.map Row.key := by
  rw [List.map_map]
  rfl

/-- The two containers hold the rows, the list in their order, and each node holds the
address of the other one of its row. -/
structure Linked (c : LinkedLRUCache κ ν) (rows : List (Row κ ν)) : Prop where
  lru : c.lru = rows.map Row.lruNode
  data : c.data.Perm (rows.map Row.dataNode)
  dataAddrs : (rows.map Row.dataAddr).Nodup
  lruAddrs : (rows.map Row.lruAddr).Nodup
  keys : (rows.map Row.key).Nodup

section Linked

variable {c : LinkedLRUCache κ ν} {rows before after : List (Row κ ν)} {r : Row κ ν} {key : κ}

theorem linked_make (capacity : Nat) : Linked (make capacity : LinkedLRUCache κ ν) [] :=
  ⟨rfl, .nil, List.nodup_nil, List.nodup_nil, List.nodup_nil⟩

theorem linked_clear (c : LinkedLRUCache κ ν) : Linked c.clear [] :=
  ⟨rfl, .nil, List.nodup_nil, List.nodup_nil, List.nodup_nil⟩

theorem Linked.length_data (h : Linked c rows) : c.data.length = rows.length := by
  rw [h.data.length_eq, List.length_map]

theorem Linked.keys_perm (h : Linked c rows) : (c.data.map DataNode.key).Perm (rows.map Row.key) := by
  rw [← map_key_dataNode]
  exact h.data.map _

theorem eraseLru_eq (hlru : c.lru = (before ++ r :: after).map Row.lruNode)
    (haddrs : ((before ++ r :: after).map Row.lruAddr).Nodup) :
    c.eraseLru (some r.lruAddr) = some { c with lru := (before ++ after).map Row.lruNode } := by
  rw [← map_addr_lruNode, List.map_append, List.map_cons] at haddrs
  have hunlink := unlink_append haddrs
  rw [← List.map_cons, ← List.map_append, ← List.map_append, ← hlru] at hunlink
  show (unlink LRUNode.addr r.lruNode.addr c.lru).bind _ = _
  rw [hunlink]
  rfl

theorem eraseData_eq (hdata : c.data.Perm ((before ++ r :: after).map Row.dataNode))
    (haddrs : ((before ++ r :: after).map Row.dataAddr).Nodup) :
    ∃ data, c.eraseData r.dataAddr = some { c with data := data } ∧
      data.Perm ((before ++ after).map Row.dataNode) := by
  have hnodup : (c.data.map DataNode.addr).Nodup := by
    rw [← map_addr_dataNode] at haddrs
    exact (hdata.map _).nodup_iff.2 haddrs
  have hperm : c.data.Perm (r.dataNode :: (before ++ after).map Row.dataNode) :=
    hdata.trans (List.perm_middle.map Row.dataNode)
  obtain ⟨data, hunlink, hrest⟩ := unlink_perm hperm hnodup
  refine ⟨data, ?_, hrest⟩
  show (unlink DataNode.addr r.dataNode.addr c.data).bind _ = _
  rw [hunlink]
  rfl

/-- Without the nodes of one row. -/
theorem Linked.without (h : Linked c (before ++ r :: after)) {data : List (DataNode κ ν)}
    (hdata : data.Perm ((before ++ after).map Row.dataNode)) :
    Linked { c with data := data, lru := (before ++ after).map Row.lruNode } (before ++ after) := by
  have hsub : (before ++ after).Sublist (before ++ r :: after) :=
    (List.Sublist.refl before).append (List.sublist_cons_self r after)
  exact ⟨rfl, hdata, h.dataAddrs.sublist (hsub.map _), h.lruAddrs.sublist (hsub.map _),
    h.keys.sublist (hsub.map _)⟩

/-- The oldest row leaves when there is no room for another one. -/
theorem Linked.retire (h : Linked c rows) (hcapacity : c.capacity ≠ 0) :
    ∃ c', c.retire = some c' ∧ c'.capacity = c.capacity ∧
      Linked c' (if c.capacity ≤ rows.length then rows.tail else rows) := by
  rw [LinkedLRUCache.retire, h.length_data]
  by_cases hfull : c.capacity ≤ rows.length
  · rw [if_pos hfull, if_pos hfull]
    cases rows with
    | nil =>
        rw [List.length_nil] at hfull
        omega
    | cons r rest =>
        have hsplit : Linked c ([] ++ r :: rest) := h
        obtain ⟨data, hdata, hperm⟩ := eraseData_eq hsplit.data hsplit.dataAddrs
        have hlru := eraseLru_eq (c := { c with data := data }) hsplit.lru hsplit.lruAddrs
        refine ⟨{ c with data := data, lru := rest.map Row.lruNode }, ?_, rfl,
          hsplit.without hperm⟩
        rw [retireOldest, h.lru]
        show ((c.eraseData r.dataAddr).bind fun c => c.eraseLru (some r.lruAddr)) = _
        rw [hdata, Option.bind_some, hlru]
        rfl
  · rw [if_neg hfull, if_neg hfull]
    exact ⟨c, rfl, rfl, h⟩

variable [DecidableEq κ]

/-- Searching the map is searching the rows. -/
theorem Linked.find (h : Linked c rows) (key : κ) :
    c.find key = (rows.find? (·.key = key)).map Row.dataNode := by
  have hnodup := h.keys_perm.nodup_iff.2 h.keys
  rw [LinkedLRUCache.find]
  cases hfound : rows.find? (·.key = key) with
  | none =>
      rw [Option.map_none, List.find?_eq_none]
      intro d hd hkey
      obtain ⟨r, hr, rfl⟩ := List.mem_map.1 (h.data.mem_iff.1 hd)
      exact List.find?_eq_none.1 hfound r hr hkey
  | some r =>
      obtain rfl : r.key = key := by simpa using List.find?_some hfound
      have hr := List.mem_map_of_mem (f := Row.dataNode) (List.mem_of_find?_eq_some hfound)
      exact find?_of_nodup hnodup (h.data.mem_iff.2 hr)

/-- The row of a key among the others. -/
theorem exists_row (h : rows.find? (·.key = key) = some r) :
    r.key = key ∧ ∃ before after, rows = before ++ r :: after :=
  ⟨by simpa using List.find?_some h, List.append_of_mem (List.mem_of_find?_eq_some h)⟩

theorem Linked.erase (h : Linked c rows) (key : κ) : ∃ found c', c.erase key = some (found, c') ∧
    c'.capacity = c.capacity ∧ Linked c' (rows.eraseP (·.key = key)) := by
  have hfind := h.find key
  rw [LinkedLRUCache.erase, hfind]
  cases hfound : rows.find? (·.key = key) with
  | none =>
      rw [List.eraseP_of_forall_not (List.find?_eq_none.1 hfound)]
      exact ⟨false, c, rfl, rfl, h⟩
  | some r =>
      obtain ⟨rfl, before, after, rfl⟩ := exists_row hfound
      have hlru := eraseLru_eq h.lru h.lruAddrs
      obtain ⟨data, hdata, hperm⟩ :=
        eraseData_eq (c := { c with lru := (before ++ after).map Row.lruNode }) h.data h.dataAddrs
      rw [eraseP_of_nodup h.keys]
      refine ⟨true, { c with data := data, lru := (before ++ after).map Row.lruNode }, ?_, rfl,
        h.without hperm⟩
      show ((c.eraseLru (some r.lruAddr)).bind fun c => (c.eraseData r.dataAddr).bind fun c =>
        some (true, c)) = _
      rw [hlru, Option.bind_some, hdata, Option.bind_some]

/-- A new key gets a row behind the others, whatever addresses its nodes are given. -/
theorem Linked.insert (h : Linked c rows) (hkey : key ∉ rows.map Row.key) (value : ν)
    (dataAlloc lruAlloc : Allocator) : ∃ c' i j, c.insert dataAlloc lruAlloc key value = some c' ∧
      c'.capacity = c.capacity ∧ Linked c' (rows ++ [⟨i, j, key, value⟩]) := by
  let i := dataAlloc.node (c.data.map DataNode.addr)
  let j := lruAlloc.node (c.lru.map LRUNode.addr)
  have hi : i ∉ c.data.map DataNode.addr := dataAlloc.fresh _
  have hj : j ∉ c.lru.map LRUNode.addr := lruAlloc.fresh _
  have hfind : c.find key = none := by
    rw [h.find, Option.map_eq_none_iff, List.find?_eq_none]
    exact fun r hr heq => hkey (of_decide_eq_true heq ▸ List.mem_map_of_mem hr)
  -- only the new node has the address to which the iterator is written
  have hset : c.data.map (fun d => if d.addr = i then { d with it := some j } else d) = c.data := by
    refine (List.map_congr_left fun d hd => if_neg fun heq => hi ?_).trans (List.map_id _)
    exact heq ▸ List.mem_map_of_mem hd
  refine ⟨{ c with data := ⟨i, key, some j, value⟩ :: c.data, lru := c.lru ++ [⟨j, i⟩] }, i, j,
    ?_, rfl, ?_⟩
  · rw [LinkedLRUCache.insert, emplace, hfind]
    show some (setIt i j { c with
      data := ⟨i, key, none, value⟩ :: c.data, lru := c.lru ++ [⟨j, i⟩] }) = _
    rw [setIt, List.map_cons, if_pos rfl, hset]
  · have hdataAddrs := (h.data.map DataNode.addr).mem_iff.not.1 hi
    rw [map_addr_dataNode] at hdataAddrs
    rw [h.lru, map_addr_lruNode] at hj
    constructor
    · rw [h.lru, List.map_append]
      rfl
    · rw [List.map_append]
      exact (h.data.cons _).trans (List.perm_append_singleton _ _).symm
    · exact nodup_map_concat h.dataAddrs hdataAddrs
    · exact nodup_map_concat h.lruAddrs hj
    · exact nodup_map_concat h.keys hkey

/-- The rows after `upsert`: that of the key leaves, then the oldest if there is no room. -/
theorem Linked.upsert (h : Linked c rows) (hcapacity : c.capacity ≠ 0) (key : κ) (value : ν)
    (dataAlloc lruAlloc : Allocator) : ∃ c' i j,
      c.upsert dataAlloc lruAlloc key value = some c' ∧ c'.capacity = c.capacity ∧
      Linked c' ((if c.capacity ≤ (rows.eraseP (·.key = key)).length then
        (rows.eraseP (·.key = key)).tail else rows.eraseP (·.key = key)) ++
          [⟨i, j, key, value⟩]) := by
  obtain ⟨found, c₁, herase, hcapacity₁, h₁⟩ := h.erase key
  obtain ⟨c₂, hretire, hcapacity₂, h₂⟩ := h₁.retire (hcapacity₁ ▸ hcapacity)
  rw [hcapacity₁] at h₂
  have hkey : key ∉ (if c.capacity ≤ (rows.eraseP (·.key = key)).length then
      (rows.eraseP (·.key = key)).tail else rows.eraseP (·.key = key)).map Row.key := by
    have hnotMem := notMem_map_eraseP h.keys key
    split
    · exact fun hmem => hnotMem ((List.tail_sublist _).map Row.key |>.subset hmem)
    · exact hnotMem
  obtain ⟨c₃, i, j, hinsert, hcapacity₃, h₃⟩ := h₂.insert hkey value dataAlloc lruAlloc
  refine ⟨c₃, i, j, ?_, hcapacity₃.trans (hcapacity₂.trans hcapacity₁), h₃⟩
  rw [LinkedLRUCache.upsert, if_neg hcapacity, herase]
  show (c₁.retire.bind fun c => c.insert dataAlloc lruAlloc key value) = _
  rw [hretire, Option.bind_some, hinsert]

theorem Linked.get_none (h : Linked c rows) (hfound : rows.find? (·.key = key) = none) :
    c.get key = some (none, c) := by
  rw [LinkedLRUCache.get, h.find, hfound]
  rfl

/-- The row of a key that is found goes behind the others, with the addresses it had. -/
theorem Linked.get_some (h : Linked c rows) (hfound : rows.find? (·.key = key) = some r) :
    ∃ c', c.get key = some (some r.value, c') ∧ c'.capacity = c.capacity ∧
      Linked c' (rows.eraseP (·.key = key) ++ [r]) := by
  have hfind := h.find key
  rw [hfound] at hfind
  obtain ⟨rfl, before, after, rfl⟩ := exists_row hfound
  have hmoved : (before ++ after ++ [r]).Perm (before ++ r :: after) :=
    (List.perm_append_singleton r _).trans List.perm_middle.symm
  have hlru : unlink LRUNode.addr r.lruAddr c.lru =
      some (r.lruNode, (before ++ after).map Row.lruNode) := by
    have haddrs := h.lruAddrs
    rw [← map_addr_lruNode, List.map_append, List.map_cons] at haddrs
    rw [h.lru, List.map_append, List.map_append, List.map_cons]
    exact unlink_append haddrs
  rw [eraseP_of_nodup h.keys]
  refine ⟨{ c with lru := (before ++ after).map Row.lruNode ++ [r.lruNode] }, ?_, rfl, ?_⟩
  · rw [LinkedLRUCache.get, hfind]
    show ((unlink LRUNode.addr r.lruAddr c.lru).bind _).bind _ = _
    rw [hlru]
    rfl
  · constructor
    · show (before ++ after).map Row.lruNode ++ [r].map Row.lruNode = _
      exact (List.map_append ..).symm
    · exact h.data.trans (hmoved.map _).symm
    · exact (hmoved.map _).nodup_iff.2 h.dataAddrs
    · exact (hmoved.map _).nodup_iff.2 h.lruAddrs
    · exact (hmoved.map _).nodup_iff.2 h.keys

end Linked

section Represents

/-- The nodes of a cache, whose entries are those of the rows in their order. -/
def Represents (c : LinkedLRUCache κ ν) (l : LRUCache κ ν) : Prop :=
  ∃ rows, Linked c rows ∧ c.capacity = l.capacity ∧ l.data = rows.map Row.entry

variable {c : LinkedLRUCache κ ν} {l : LRUCache κ ν}

theorem make_represents (capacity : Nat) :
    Represents (make capacity : LinkedLRUCache κ ν) (LRUCache.make capacity) :=
  ⟨[], linked_make capacity, rfl, rfl⟩

theorem size_represents (h : Represents c l) : c.size = l.size := by
  obtain ⟨rows, hlinked, -, hdata⟩ := h
  rw [size, LRUCache.size, hlinked.length_data, hdata, List.length_map]

theorem clear_represents (h : Represents c l) : Represents c.clear l.clear := by
  obtain ⟨rows, -, hcapacity, -⟩ := h
  exact ⟨[], linked_clear c, hcapacity, rfl⟩

variable [DecidableEq κ]

theorem eraseP_entries (rows : List (Row κ ν)) (key : κ) :
    (rows.map Row.entry).eraseP (·.1 = key) = (rows.eraseP (·.key = key)).map Row.entry :=
  List.eraseP_map ..

theorem upsert_represents (h : Represents c l) (key : κ) (value : ν)
    (dataAlloc lruAlloc : Allocator) : ∃ c', c.upsert dataAlloc lruAlloc key value = some c' ∧
      Represents c' (l.upsert key value) := by
  obtain ⟨rows, hlinked, hcapacity, hdata⟩ := h
  by_cases hzero : c.capacity = 0
  · refine ⟨c, by rw [upsert, if_pos hzero], rows, hlinked, ?_, ?_⟩
    · rw [hcapacity, LRUCache.capacity_upsert]
    · rw [LRUCache.upsert, dif_pos (hcapacity.symm.trans hzero), hdata]
  · obtain ⟨c', i, j, hupsert, hcapacity', hlinked'⟩ :=
      hlinked.upsert hzero key value dataAlloc lruAlloc
    refine ⟨c', hupsert, _, hlinked', ?_, ?_⟩
    · rw [hcapacity', hcapacity, LRUCache.capacity_upsert]
    · rw [LRUCache.data_upsert (hcapacity ▸ hzero), LRUCache.retire, hdata, eraseP_entries,
        List.length_map, ← List.map_tail, hcapacity, List.map_append]
      split <;> rfl

theorem get_represents (h : Represents c l) (key : κ) :
    ∃ c', c.get key = some ((l.get key).1, c') ∧ Represents c' (l.get key).2 := by
  obtain ⟨rows, hlinked, hcapacity, hdata⟩ := h
  have hfind : l.data.find? (·.1 = key) = (rows.find? (·.key = key)).map Row.entry := by
    rw [hdata]
    exact List.find?_map ..
  cases hfound : rows.find? (·.key = key) with
  | none =>
      rw [hfound] at hfind
      rw [LRUCache.get_of_find?_none hfind]
      exact ⟨c, hlinked.get_none hfound, rows, hlinked, hcapacity, hdata⟩
  | some r =>
      rw [hfound] at hfind
      obtain ⟨hvalue, hcapacity', hdata'⟩ := LRUCache.get_of_find?_some hfind
      obtain ⟨c', hget, hsame, hlinked'⟩ := hlinked.get_some hfound
      refine ⟨c', hvalue ▸ hget, _, hlinked', hsame.trans (hcapacity.trans hcapacity'.symm), ?_⟩
      obtain ⟨rfl, -⟩ := exists_row hfound
      rw [hdata', hdata, eraseP_entries, List.map_append]
      rfl

end Represents

end LinkedLRUCache

end Util
end Archinix
