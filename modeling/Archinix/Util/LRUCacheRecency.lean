import Archinix.Util.LRUCacheNodes

/-!
# The cache against its history

What `LRUCache` is for: of the keys used since it was cleared it holds the values of those
used last, as many as its capacity.  Which these are is read off the history of the calls
and their answers.

`calls_follow`: every sequence of calls on the nodes of the cache runs to its end, with
the answers that the history before each call gives.
-/

namespace Archinix
namespace Util

open Foundation

inductive CacheCall (κ ν : Type) where
  | upsert (dataAlloc lruAlloc : Allocator) (key : κ) (value : ν)
  | get (key : κ)
  | size
  | clear

inductive CacheAnswer (ν : Type) where
  | done
  | value (found : Option ν)
  | count (n : Nat)

/-- Calls with their answers, the first one first. -/
abbrev CacheHistory (κ ν : Type) := List (CacheCall κ ν × CacheAnswer ν)

namespace LinkedLRUCache

variable {κ ν : Type} [DecidableEq κ]

def call (c : LinkedLRUCache κ ν) : CacheCall κ ν → Option (CacheAnswer ν × LinkedLRUCache κ ν)
  | .upsert dataAlloc lruAlloc key value =>
      (c.upsert dataAlloc lruAlloc key value).map fun c => (.done, c)
  | .get key => (c.get key).map fun (found, c) => (.value found, c)
  | .size => some (.count c.size, c)
  | .clear => some (.done, c.clear)

def calls (c : LinkedLRUCache κ ν) :
    List (CacheCall κ ν) → Option (CacheHistory κ ν × LinkedLRUCache κ ν)
  | [] => some ([], c)
  | k :: ks => do
      let (a, c) ← c.call k
      let (history, c) ← c.calls ks
      some ((k, a) :: history, c)

/-- The keys inserted or found since the last `clear`, the last one first. -/
def recent (history : CacheHistory κ ν) : List κ :=
  history.foldl (fun keys event =>
    match event with
    | (.upsert _ _ key _, _) => touch key keys
    | (.get key, .value (some _)) => touch key keys
    | (.clear, _) => []
    | _ => keys) []

/-- The value of the latest `upsert` of a key. -/
def latest (key : κ) (history : CacheHistory κ ν) : Option ν :=
  history.foldl (fun found event =>
    match event with
    | (.upsert _ _ k value, _) => if k = key then some value else found
    | _ => found) none

/-- The answer to a call after a history: the value of the latest `upsert` of a key that is
among the `capacity` last used ones, and none for another key. -/
def Expected (capacity : Nat) (history : CacheHistory κ ν) (k : CacheCall κ ν)
    (a : CacheAnswer ν) : Prop :=
  match k with
  | .upsert .. => a = .done
  | .get key =>
      if key ∈ (recent history).take capacity then
        ∃ value, latest key history = some value ∧ a = .value (some value)
      else a = .value none
  | .size => a = .count ((recent history).take capacity).length
  | .clear => a = .done

section Readings

variable (history : CacheHistory κ ν) (dataAlloc lruAlloc : Allocator) (key k : κ) (value : ν)
  (a : CacheAnswer ν)

@[simp] theorem recent_upsert : recent (history ++ [(.upsert dataAlloc lruAlloc key value, a)]) =
    touch key (recent history) := List.foldl_append ..

@[simp] theorem recent_hit : recent (history ++ [(.get key, .value (some value))]) =
    touch key (recent history) := List.foldl_append ..

@[simp] theorem recent_miss : recent (history ++ [(.get key, .value none)]) = recent history :=
  List.foldl_append ..

@[simp] theorem recent_size : recent (history ++ [(.size, a)]) = recent history :=
  List.foldl_append ..

@[simp] theorem recent_clear : recent (history ++ [(.clear, a)]) = [] := List.foldl_append ..

@[simp] theorem latest_upsert :
    latest k (history ++ [(.upsert dataAlloc lruAlloc key value, a)]) =
      if key = k then some value else latest k history := List.foldl_append ..

@[simp] theorem latest_get : latest k (history ++ [(.get key, a)]) = latest k history :=
  List.foldl_append ..

@[simp] theorem latest_size : latest k (history ++ [(.size, a)]) = latest k history :=
  List.foldl_append ..

@[simp] theorem latest_clear : latest k (history ++ [(.clear, a)]) = latest k history :=
  List.foldl_append ..

/-- No key is counted twice among those used last. -/
theorem nodup_recent : (recent history).Nodup := by
  refine List.foldlRecOn history _ List.nodup_nil fun keys hkeys event _ => ?_
  split
  · exact nodup_touch hkeys
  · exact nodup_touch hkeys
  · exact List.nodup_nil
  · exact hkeys

end Readings

/-- The entries of the cache, the oldest one first, are those the history tells to hold. -/
structure Follows (capacity : Nat) (history : CacheHistory κ ν) (l : LRUCache κ ν) : Prop where
  capacity_eq : l.capacity = capacity
  keys : (l.data.map Prod.fst).reverse = (recent history).take capacity
  values : ∀ e ∈ l.data, latest e.1 history = some e.2

section Follows

variable {capacity : Nat} {history : CacheHistory κ ν} {l : LRUCache κ ν} {key : κ} {value : ν}

theorem follows_make (capacity : Nat) : Follows capacity [] (LRUCache.make capacity : LRUCache κ ν) :=
  ⟨rfl, List.take_nil.symm, fun _ he => by cases he⟩

theorem Follows.mem_keys (h : Follows capacity history l) :
    key ∈ (recent history).take capacity ↔ key ∈ l.data.map Prod.fst := by
  rw [← h.keys, List.mem_reverse]

theorem Follows.size (h : Follows capacity history l) :
    l.size = ((recent history).take capacity).length := by
  rw [← h.keys, List.length_reverse, List.length_map]
  rfl

/-- What `upsert` keeps of the other keys, the last used one first. -/
theorem keys_retire {n : Nat} (hcapacity : l.capacity = n + 1) :
    ((l.retire key).map Prod.fst).reverse = ((l.data.map Prod.fst).reverse.erase key).take n := by
  have herased : ((l.data.eraseP (·.1 = key)).map Prod.fst).reverse =
      (l.data.map Prod.fst).reverse.erase key := by
    rw [map_eraseP, reverse_erase l.nodup]
  have hsub : (l.data.eraseP (·.1 = key)).length ≤ l.data.length := List.eraseP_sublist.length_le
  have hsize := l.size_le
  rw [LRUCache.retire, hcapacity, ← herased]
  generalize l.data.eraseP (·.1 = key) = erased at hsub ⊢
  by_cases hfull : n + 1 ≤ erased.length
  · have hlength : ((erased.map Prod.fst).reverse).length - 1 = n := by
      rw [List.length_reverse, List.length_map]
      omega
    rw [if_pos hfull, List.map_tail, ← List.dropLast_reverse, List.dropLast_eq_take, hlength]
  · rw [if_neg hfull, List.take_of_length_le]
    rw [List.length_reverse, List.length_map]
    omega

theorem mem_retire {e : κ × ν} (he : e ∈ l.retire key) : e ∈ l.data ∧ e.1 ≠ key := by
  have herased := (l.retire_sublist key).subset he
  refine ⟨List.eraseP_sublist.subset herased, fun heq => ?_⟩
  have hkey := List.mem_map_of_mem (f := Prod.fst) herased
  rw [heq] at hkey
  exact notMem_map_eraseP l.nodup key hkey

theorem Follows.upsert (h : Follows capacity history l) (dataAlloc lruAlloc : Allocator) (key : κ)
    (value : ν) (a : CacheAnswer ν) :
    Follows capacity (history ++ [(.upsert dataAlloc lruAlloc key value, a)])
      (l.upsert key value) := by
  have hcapacity := h.capacity_eq
  cases capacity with
  | zero =>
      -- nothing is held
      have hdata : l.data = [] := List.eq_nil_of_length_eq_zero (by have := l.size_le; omega)
      rw [LRUCache.upsert, dif_pos hcapacity]
      refine ⟨hcapacity, ?_, fun e he => ?_⟩
      · rw [hdata]
        rfl
      · rw [hdata] at he
        cases he
  | succ n =>
      have hdata : (l.upsert key value).data = _ := LRUCache.data_upsert (by omega)
      refine ⟨l.capacity_upsert.trans hcapacity, ?_, fun e he => ?_⟩
      · rw [hdata, recent_upsert, take_touch, ← h.keys, ← keys_retire hcapacity, List.map_append,
          List.reverse_append]
        rfl
      · rw [hdata, List.mem_append] at he
        rw [latest_upsert]
        rcases he with he | he
        · obtain ⟨hmem, hne⟩ := mem_retire he
          rw [if_neg hne.symm, h.values e hmem]
        · rw [List.mem_singleton.1 he, if_pos rfl]

theorem Follows.get_miss (h : Follows capacity history l)
    (hfound : l.data.find? (·.1 = key) = none) :
    Expected capacity history (.get key) (.value none) ∧
      Follows capacity (history ++ [(.get key, .value none)]) l := by
  have hmiss : key ∉ (recent history).take capacity := by
    rw [h.mem_keys]
    intro hmem
    obtain ⟨e, he, hkey⟩ := List.mem_map.1 hmem
    exact List.find?_eq_none.1 hfound e he (decide_eq_true hkey)
  refine ⟨?_, h.capacity_eq, ?_, fun e he => ?_⟩
  · rw [Expected, if_neg hmiss]
  · rw [recent_miss, h.keys]
  · rw [latest_get, h.values e he]

theorem Follows.get_hit (h : Follows capacity history l) {e : κ × ν}
    (hfound : l.data.find? (·.1 = key) = some e) :
    Expected capacity history (.get key) (.value (some e.2)) ∧
      Follows capacity (history ++ [(.get key, .value (some e.2))]) (l.get key).2 := by
  have hmem := List.mem_of_find?_eq_some hfound
  obtain rfl : e.1 = key := by simpa using List.find?_some hfound
  have hheld : e.1 ∈ (recent history).take capacity := h.mem_keys.2 (List.mem_map_of_mem hmem)
  obtain ⟨-, hcapacity, hdata⟩ := LRUCache.get_of_find?_some hfound
  refine ⟨?_, hcapacity.trans h.capacity_eq, ?_, fun d hd => ?_⟩
  · rw [Expected, if_pos hheld]
    exact ⟨e.2, h.values e hmem, rfl⟩
  · rw [hdata, recent_hit, take_touch_of_mem hheld, ← h.keys, touch, ← reverse_erase l.nodup,
      ← map_eraseP, List.map_append, List.reverse_append]
    rfl
  · rw [hdata, List.mem_append] at hd
    rw [latest_get]
    rcases hd with hd | hd
    · exact h.values d (List.eraseP_sublist.subset hd)
    · rw [List.mem_singleton.1 hd]
      exact h.values e hmem

theorem Follows.clear (h : Follows capacity history l) (a : CacheAnswer ν) :
    Follows capacity (history ++ [(.clear, a)]) l.clear :=
  ⟨h.capacity_eq, by rw [recent_clear, List.take_nil]; rfl, fun _ he => by cases he⟩

end Follows

/-- One call on the nodes. -/
theorem call_follows {capacity : Nat} {history : CacheHistory κ ν} {c : LinkedLRUCache κ ν}
    {l : LRUCache κ ν} (hnodes : Represents c l) (h : Follows capacity history l)
    (k : CacheCall κ ν) : ∃ a c' l', c.call k = some (a, c') ∧ Expected capacity history k a ∧
      Represents c' l' ∧ Follows capacity (history ++ [(k, a)]) l' := by
  cases k with
  | upsert dataAlloc lruAlloc key value =>
      obtain ⟨c', hupsert, hnodes'⟩ := upsert_represents hnodes key value dataAlloc lruAlloc
      refine ⟨.done, c', l.upsert key value, ?_, rfl, hnodes', h.upsert ..⟩
      rw [call, hupsert]
      rfl
  | get key =>
      obtain ⟨c', hget, hnodes'⟩ := get_represents hnodes key
      cases hfound : l.data.find? (·.1 = key) with
      | none =>
          obtain ⟨hexpected, hfollows⟩ := h.get_miss hfound
          rw [LRUCache.get_of_find?_none hfound] at hget hnodes'
          refine ⟨.value none, c', l, ?_, hexpected, hnodes', hfollows⟩
          rw [call, hget]
          rfl
      | some e =>
          obtain ⟨hexpected, hfollows⟩ := h.get_hit hfound
          rw [(LRUCache.get_of_find?_some hfound).1] at hget
          refine ⟨.value (some e.2), c', _, ?_, hexpected, hnodes', hfollows⟩
          rw [call, hget]
          rfl
  | size =>
      refine ⟨.count c.size, c, l, rfl, ?_, hnodes, h.capacity_eq, ?_, fun e he => ?_⟩
      · rw [Expected, size_represents hnodes, h.size]
      · rw [recent_size, h.keys]
      · rw [latest_size, h.values e he]
  | clear => exact ⟨.done, c.clear, l.clear, rfl, rfl, clear_represents hnodes, h.clear _⟩

theorem calls_cons {c : LinkedLRUCache κ ν} {k : CacheCall κ ν} {ks : List (CacheCall κ ν)}
    {a : CacheAnswer ν} {c' c'' : LinkedLRUCache κ ν} {history : CacheHistory κ ν}
    (hcall : c.call k = some (a, c')) (hcalls : c'.calls ks = some (history, c'')) :
    c.calls (k :: ks) = some ((k, a) :: history, c'') := by
  show ((c.call k).bind fun r => (r.2.calls ks).bind fun q => some ((k, r.1) :: q.1, q.2)) = _
  rw [hcall, Option.bind_some, hcalls, Option.bind_some]

/-- A run of calls, from any point of a history. -/
theorem calls_follow_from {capacity : Nat} (ks : List (CacheCall κ ν)) {past : CacheHistory κ ν}
    {c : LinkedLRUCache κ ν} {l : LRUCache κ ν} (hnodes : Represents c l)
    (h : Follows capacity past l) : ∃ history c' l', c.calls ks = some (history, c') ∧
      history.map Prod.fst = ks ∧
      (∀ before k a after, history = before ++ (k, a) :: after →
        Expected capacity (past ++ before) k a) ∧
      Represents c' l' ∧ Follows capacity (past ++ history) l' := by
  induction ks generalizing past c l with
  | nil =>
      refine ⟨[], c, l, rfl, rfl, fun before k a after hsplit => ?_, hnodes, ?_⟩
      · simp at hsplit
      · rwa [List.append_nil]
  | cons k ks ih =>
      obtain ⟨a, c₁, l₁, hcall, hexpected, hnodes₁, h₁⟩ := call_follows hnodes h k
      obtain ⟨history, c', l', hcalls, hfst, hrest, hnodes', h'⟩ := ih hnodes₁ h₁
      refine ⟨(k, a) :: history, c', l', calls_cons hcall hcalls, ?_, ?_, hnodes', ?_⟩
      · rw [List.map_cons, hfst]
      · intro before k' a' after hsplit
        cases before with
        | nil =>
            obtain ⟨⟨rfl, rfl⟩, -⟩ : (k = k' ∧ a = a') ∧ history = after := by simpa using hsplit
            rwa [List.append_nil]
        | cons e before =>
            obtain ⟨rfl, htail⟩ := List.cons.inj hsplit
            have hexpected' := hrest before k' a' after htail
            rwa [List.append_assoc] at hexpected'
      · rwa [List.append_assoc] at h'

/-- The keys of the list, read through its iterators. -/
def lruKeys (c : LinkedLRUCache κ ν) : List (Option κ) :=
  c.lru.map fun n => (c.data.find? (·.addr = n.target)).map DataNode.key

/-- The two containers hold the same keys, each once, and every iterator that the map
stores is that of its own key's node. -/
structure Consistent (c : LinkedLRUCache κ ν) : Prop where
  keys_nodup : (c.data.map DataNode.key).Nodup
  keys_perm : c.lruKeys.Perm (c.data.map fun d => some d.key)
  addrs_nodup : (c.lru.map LRUNode.addr).Nodup
  iterators : ∀ d ∈ c.data, ∃ n ∈ c.lru, d.it = some n.addr ∧ n.target = d.addr

omit [DecidableEq κ] in
theorem Linked.lruKeys {c : LinkedLRUCache κ ν} {rows : List (Row κ ν)} (h : Linked c rows) :
    c.lruKeys = rows.map fun r => some r.key := by
  have haddrs : (c.data.map DataNode.addr).Nodup := by
    rw [(h.data.map _).nodup_iff, map_addr_dataNode]
    exact h.dataAddrs
  rw [LinkedLRUCache.lruKeys, h.lru, List.map_map]
  refine List.map_congr_left fun r hr => ?_
  have hmem : r.dataNode ∈ c.data := h.data.mem_iff.2 (List.mem_map_of_mem hr)
  show (c.data.find? (·.addr = r.dataNode.addr)).map DataNode.key = _
  rw [find?_of_nodup haddrs hmem]
  rfl

omit [DecidableEq κ] in
theorem Linked.consistent {c : LinkedLRUCache κ ν} {rows : List (Row κ ν)} (h : Linked c rows) :
    c.Consistent := by
  constructor
  · exact h.keys_perm.nodup_iff.2 h.keys
  · rw [h.lruKeys]
    have hperm := h.keys_perm.symm.map (some : κ → Option κ)
    rwa [List.map_map, List.map_map] at hperm
  · rw [h.lru, map_addr_lruNode]
    exact h.lruAddrs
  · intro d hd
    obtain ⟨r, hr, rfl⟩ := List.mem_map.1 (h.data.mem_iff.1 hd)
    exact ⟨r.lruNode, h.lru ▸ List.mem_map_of_mem hr, rfl, rfl⟩

omit [DecidableEq κ] in
theorem Represents.keys {c : LinkedLRUCache κ ν} {l : LRUCache κ ν} (h : Represents c l) :
    c.Consistent ∧ c.lruKeys = (l.data.map Prod.fst).map some := by
  obtain ⟨rows, hlinked, -, hdata⟩ := h
  refine ⟨hlinked.consistent, ?_⟩
  rw [hlinked.lruKeys, hdata, List.map_map, List.map_map]
  rfl

/-- Any sequence of calls on a new cache runs to its end, no call using an iterator without
its node: each answer is that of the history before it, and at the end the map and the list
hold the keys used last, the oldest one first in the list, no more than the capacity. -/
theorem calls_follow (capacity : Nat) (ks : List (CacheCall κ ν)) :
    ∃ history c, (make capacity).calls ks = some (history, c) ∧ history.map Prod.fst = ks ∧
      (∀ before k a after, history = before ++ (k, a) :: after → Expected capacity before k a) ∧
      (recent history).Nodup ∧ c.size ≤ capacity ∧ c.Consistent ∧
      c.lruKeys = ((recent history).take capacity).reverse.map some := by
  obtain ⟨history, c, l, hcalls, hfst, hexpected, hnodes, hfollows⟩ :=
    calls_follow_from ks (make_represents capacity) (follows_make capacity)
  obtain ⟨hconsistent, hkeys⟩ := hnodes.keys
  refine ⟨history, c, hcalls, hfst, hexpected, nodup_recent history, ?_, hconsistent, ?_⟩
  · rw [size_represents hnodes, ← hfollows.capacity_eq]
    exact l.size_le
  · have hlist := hfollows.keys
    rw [List.nil_append] at hlist
    rw [hkeys, ← hlist, List.reverse_reverse]

/-- The key found is used later than the one the third key retires. -/
example : ((make 2).calls [.upsert default default 1 10, .upsert default default 2 20, .get 1,
    .upsert default default 3 30, .get 2, .get 1]).map (·.1.map Prod.snd) =
      some [.done, .done, .value (some 10), .done, .value none, .value (some 10)] := rfl

end LinkedLRUCache

end Util
end Archinix
