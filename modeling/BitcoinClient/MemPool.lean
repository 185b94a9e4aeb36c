import BitcoinClient.Block
import Mathlib.Data.List.AList

/-!
# The mempool

`mempool.rs`: a `HashMap<H256, SignedTransaction>`, modelled as an `AList`, a list of
entries with distinct keys. The order of the list stands for the iteration order, which
Rust leaves unspecified, so a statement over every pool is a statement over every
iteration order.

* `addWithCheck_spec`: `add_with_check` inserts exactly when the hash is new, the
  signature checks and the pool is below `POOL_SIZE_LIMIT`, and otherwise changes nothing;
* `removeTrans_spec`: `remove_trans` keeps exactly the entries whose key is not listed, so
  it depends only on the set of hashes, and two calls are one call on both lists;
* `createContent_spec`: `create_content` takes the first `min(BLOCK_SIZE_LIMIT, size())`
  values in iteration order (`foldl_takeTran`, the loop of it).
-/

namespace BitcoinClient

/-- A `MemPool`: transactions keyed by hash. -/
@[ext] structure MemPool (Tx : Type) where
  transactions : AList (fun _ : H256 => Tx)

/-- Erasing a key of a list with distinct keys drops exactly the entry under it. -/
theorem kerase_eq_filter {K V : Type} [DecidableEq K] (a : K) :
    ∀ {l : List (Σ _ : K, V)}, l.NodupKeys → l.kerase a = l.filter (fun e => e.1 ≠ a)
  | [], _ => rfl
  | s :: l, h => by
    rw [List.nodupKeys_cons] at h
    by_cases e : a = s.1
    · subst e
      rw [List.kerase_cons_eq rfl, List.filter_cons_of_neg (by simp), eq_comm, List.filter_eq_self]
      exact fun x hx => decide_eq_true fun hx' => h.1 (hx' ▸ List.mem_keys_of_mem hx)
    · rw [List.kerase_cons_ne e, List.filter_cons_of_pos (by simpa using Ne.symm e),
        kerase_eq_filter a h.2]

variable {Tx : Type} (E : Env Tx)

namespace MemPool

def new : MemPool Tx := ⟨∅⟩

/-- `new_with_trans`: every transaction inserted under its hash, unchecked. -/
def newWithTrans (trans : List Tx) : MemPool Tx :=
  ⟨trans.foldl (fun m t => m.insert (E.hash t) t) ∅⟩

/-- `exist`: `contains_key`. -/
def exist (p : MemPool Tx) (hash : H256) : Bool := (p.transactions.lookup hash).isSome

def size (p : MemPool Tx) : Nat := p.transactions.entries.length

def empty (p : MemPool Tx) : Bool := p.transactions.entries.isEmpty

def addWithCheck (p : MemPool Tx) (tran : Tx) : Bool × MemPool Tx :=
  let hash := E.hash tran
  if p.exist hash || !E.signCheck tran || p.size ≥ E.poolSizeLimit then (false, p)
  else (true, ⟨p.transactions.insert hash tran⟩)

/-- One pass of the loop of `remove_trans`: remove `hash` if present; a miss is only
logged. -/
def removeTran (p : MemPool Tx) (hash : H256) : MemPool Tx :=
  match p.transactions.lookup hash with
  | some _ => ⟨p.transactions.erase hash⟩
  | none => p

def removeTrans (p : MemPool Tx) (trans : List H256) : MemPool Tx := trans.foldl removeTran p

/-- One pass of the loop of `create_content`: push the value while fewer than `transNum`
are taken. -/
def takeTran (transNum : Nat) (trans : List Tx) (e : Σ _ : H256, Tx) : List Tx :=
  if trans.length < transNum then trans ++ [e.2] else trans

def createContent (p : MemPool Tx) : Content Tx :=
  .newWithTrans (p.transactions.entries.foldl (takeTran (min E.blockSizeLimit p.size)) [])

/-- `get_trans`: the transactions present, in the order of `hashes`. -/
def getTrans (p : MemPool Tx) (hashes : List H256) : List Tx :=
  hashes.filterMap p.transactions.lookup

theorem exist_eq_true {p : MemPool Tx} {h : H256} : p.exist h = true ↔ h ∈ p.transactions :=
  AList.lookup_isSome

/-! ## `add_with_check` -/

theorem addWithCheck_eq (p : MemPool Tx) (t : Tx) :
    p.addWithCheck E t =
      if E.hash t ∉ p.transactions ∧ E.signCheck t = true ∧ p.size < E.poolSizeLimit
      then (true, ⟨p.transactions.insert (E.hash t) t⟩) else (false, p) := by
  unfold addWithCheck
  rcases he : p.exist (E.hash t) <;> rcases hs : E.signCheck t <;> simp [← exist_eq_true, he, hs]
  split_ifs <;> first | rfl | omega

/-- `add_with_check(t)` returns true iff `t.hash()` is not a key, `t` is signed and the
pool is below `POOL_SIZE_LIMIT`. A rejected call leaves the pool as it was; an accepted
one adds the single entry `t.hash() ↦ t`, and the size grows by one. -/
theorem addWithCheck_spec (p : MemPool Tx) (t : Tx) :
    ((p.addWithCheck E t).1 = true ↔
      E.hash t ∉ p.transactions ∧ E.signCheck t = true ∧ p.size < E.poolSizeLimit) ∧
    ((p.addWithCheck E t).1 = false → (p.addWithCheck E t).2 = p) ∧
    ((p.addWithCheck E t).1 = true →
      (∀ k, (p.addWithCheck E t).2.transactions.lookup k =
        if k = E.hash t then some t else p.transactions.lookup k) ∧
      (p.addWithCheck E t).2.size = p.size + 1) := by
  rw [addWithCheck_eq]
  split_ifs with h
  · refine ⟨by simpa using h, by simp, fun _ => ⟨fun k => ?_, ?_⟩⟩
    · split_ifs with hk
      · subst hk; exact AList.lookup_insert _
      · exact AList.lookup_insert_ne hk
    · simp only [size, AList.insert_entries_of_neg h.1, List.length_cons]
  · exact ⟨by simpa using h, fun _ => rfl, by simp⟩

/-! ## `remove_trans` -/

theorem removeTran_entries (p : MemPool Tx) (h : H256) :
    (p.removeTran h).transactions.entries = p.transactions.entries.filter (fun e => e.1 ≠ h) := by
  rw [← kerase_eq_filter h p.transactions.nodupKeys]
  unfold removeTran
  split
  · rfl
  · rename_i hn
    exact (List.kerase_of_not_mem_keys (AList.lookup_eq_none.1 hn)).symm

theorem removeTrans_entries (p : MemPool Tx) (hs : List H256) :
    (p.removeTrans hs).transactions.entries =
      p.transactions.entries.filter (fun e => e.1 ∉ hs) := by
  induction hs generalizing p with
  | nil => simp [removeTrans]
  | cons h hs ih =>
    simp only [removeTrans, List.foldl_cons] at ih ⊢
    rw [ih, removeTran_entries, List.filter_filter]
    simp [Bool.and_comm]

/-- No key listed is left. -/
theorem exist_removeTrans {p : MemPool Tx} {hs : List H256} {h : H256} (hh : h ∈ hs) :
    (p.removeTrans hs).exist h = false := by
  rw [Bool.eq_false_iff, ne_eq, exist_eq_true, AList.mem_keys, AList.keys, List.mem_keys]
  rintro ⟨v, hv⟩
  rw [removeTrans_entries] at hv
  simpa [hh] using List.of_mem_filter hv

/-- Removing only removes: a key absent stays absent. -/
theorem exist_removeTrans_of_eq_false {p : MemPool Tx} {h : H256} (hp : p.exist h = false)
    (hs : List H256) : (p.removeTrans hs).exist h = false := by
  rw [Bool.eq_false_iff, ne_eq, exist_eq_true, AList.mem_keys, AList.keys, List.mem_keys] at hp ⊢
  rintro ⟨v, hv⟩
  rw [removeTrans_entries] at hv
  exact hp ⟨v, List.mem_of_mem_filter hv⟩

theorem removeTrans_append (p : MemPool Tx) (hs₁ hs₂ : List H256) :
    (p.removeTrans hs₁).removeTrans hs₂ = p.removeTrans (hs₁ ++ hs₂) := by
  simp [removeTrans, List.foldl_append]

/-- `remove_trans(hs)` keeps exactly the entries whose key is not in `hs`, whatever the
order, repetitions and misses of `hs`. So it depends only on the set of hashes listed, and
removing `hs₁` then `hs₂` is removing `hs₁ ++ hs₂`. -/
theorem removeTrans_spec (p : MemPool Tx) (hs hs' hs₁ hs₂ : List H256) :
    (∀ e, e ∈ (p.removeTrans hs).transactions.entries ↔ e ∈ p.transactions.entries ∧ e.1 ∉ hs) ∧
    ((∀ h, h ∈ hs ↔ h ∈ hs') → p.removeTrans hs = p.removeTrans hs') ∧
    (p.removeTrans hs₁).removeTrans hs₂ = p.removeTrans (hs₁ ++ hs₂) := by
  refine ⟨fun e => by simp [removeTrans_entries], fun hh => ?_, removeTrans_append p hs₁ hs₂⟩
  exact MemPool.ext (AList.ext (by simp only [removeTrans_entries, hh]))

/-! ## `create_content` -/

/-- The loop of `create_content`, from `acc` of at most `n` values: the first
`n - acc.length` values of the rest appended. -/
theorem foldl_takeTran {n : Nat} :
    ∀ (l : List (Σ _ : H256, Tx)) (acc : List Tx), acc.length ≤ n →
      l.foldl (takeTran n) acc = acc ++ (l.take (n - acc.length)).map (·.2)
  | [], _, _ => by simp
  | e :: l, acc, h => by
    rw [List.foldl_cons, takeTran]
    split_ifs with hn
    · rw [foldl_takeTran l _ (by simp; omega), show n - acc.length = n - (acc ++ [e.2]).length + 1
        by simp; omega]
      simp
    · rw [foldl_takeTran l _ h, show n - acc.length = 0 by omega]; simp

theorem createContent_trans (p : MemPool Tx) :
    (p.createContent E).trans =
      (p.transactions.entries.take (min E.blockSizeLimit p.size)).map (·.2) := by
  simp [createContent, foldl_takeTran _ [] (Nat.zero_le _)]

theorem length_createContent (p : MemPool Tx) :
    (p.createContent E).trans.length = min E.blockSizeLimit p.size := by
  simp [createContent_trans, size]

/-- `create_content()` returns the first `min(BLOCK_SIZE_LIMIT, size())` values in
iteration order: that many transactions, each stored in the pool, from distinct entries. -/
theorem createContent_spec (p : MemPool Tx) :
    (p.createContent E).trans =
      (p.transactions.entries.take (min E.blockSizeLimit p.size)).map (·.2) ∧
    (p.createContent E).trans.length = min E.blockSizeLimit p.size ∧
    (∀ t ∈ (p.createContent E).trans, ∃ k, ⟨k, t⟩ ∈ p.transactions.entries) ∧
    (p.transactions.entries.take (min E.blockSizeLimit p.size)).Nodup := by
  have ht : (p.createContent E).trans =
      (p.transactions.entries.take (min E.blockSizeLimit p.size)).map (·.2) := by
    simp [createContent, foldl_takeTran _ [] (Nat.zero_le _)]
  refine ⟨ht, ?_, fun t h => ?_, (p.transactions.nodupKeys.nodup).sublist (List.take_sublist _ _)⟩
  · simp [ht, size]
  · rw [ht] at h
    obtain ⟨e, he, rfl⟩ := List.mem_map.1 h
    exact ⟨e.1, List.mem_of_mem_take he⟩

end MemPool

end BitcoinClient
