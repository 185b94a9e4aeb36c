import BitcoinClient.MemPool

/-!
# The invariant of reachable pools

A caller changes a pool only through `add_with_check` and `remove_trans`; `create_content`,
`get_trans`, `exist`, `size` and `empty` take `&self`. `MemPool.run` applies a list of these
operations, and a pool is `Reachable` when some list of them builds it from
`MemPool::new()` (`new_with_trans`, which inserts unchecked, is not a start).

`Valid` is what every reachable pool satisfies (`run_new_valid`): each entry is keyed by
its transaction's `hash()`, every transaction passes `sign_check()`, and there are at most
`POOL_SIZE_LIMIT` entries. Each operation keeps it (`Valid.apply`). On a valid pool,
`get_trans` returns exactly the transactions present under the hashes asked
(`Valid.getTrans_hashes`), and gives back a content `create_content` made
(`Valid.getTrans_createContent`). `new_with_trans` keeps the last transaction of each hash
(`lookup_newWithTrans`).
-/

namespace BitcoinClient

/-- The public operations of a `MemPool`. -/
inductive PoolOp (Tx : Type)
  | addWithCheck (t : Tx)
  | removeTrans (hashes : List H256)
  | createContent
  | getTrans (hashes : List H256)
  | exist (hash : H256)
  | size
  | empty

variable {Tx : Type} (E : Env Tx)

namespace MemPool

/-- The pool after one operation. -/
def apply (p : MemPool Tx) : PoolOp Tx → MemPool Tx
  | .addWithCheck t => (p.addWithCheck E t).2
  | .removeTrans hs => p.removeTrans hs
  | .createContent | .getTrans _ | .exist _ | .size | .empty => p

def run (p : MemPool Tx) (ops : List (PoolOp Tx)) : MemPool Tx := ops.foldl (apply E) p

/-- Built from `MemPool::new()` by some operations. -/
def Reachable (p : MemPool Tx) : Prop := ∃ ops, p = new.run E ops

/-- Each entry is keyed by its transaction's hash, and signed; at most `POOL_SIZE_LIMIT`
entries. -/
structure Valid (p : MemPool Tx) : Prop where
  keyed : ∀ k t, ⟨k, t⟩ ∈ p.transactions.entries → k = E.hash t
  signed : ∀ k t, ⟨k, t⟩ ∈ p.transactions.entries → E.signCheck t = true
  bounded : p.size ≤ E.poolSizeLimit

variable {E}

theorem valid_new : Valid E (new : MemPool Tx) :=
  ⟨fun _ _ h => absurd h (List.not_mem_nil _), fun _ _ h => absurd h (List.not_mem_nil _),
    Nat.zero_le _⟩

theorem Valid.addWithCheck {p : MemPool Tx} (hp : Valid E p) (t : Tx) :
    Valid E (p.addWithCheck E t).2 := by
  rw [addWithCheck_eq]
  split_ifs with h
  · have hm : ∀ k u, ⟨k, u⟩ ∈ (p.transactions.insert (E.hash t) t).entries →
        (k = E.hash t ∧ u = t) ∨ ⟨k, u⟩ ∈ p.transactions.entries := fun k u hu => by
      rw [AList.insert_entries_of_neg h.1, List.mem_cons] at hu
      simpa using hu
    refine ⟨fun k u hu => ?_, fun k u hu => ?_, ?_⟩
    · rcases hm k u hu with ⟨rfl, rfl⟩ | hu
      exacts [rfl, hp.keyed k u hu]
    · rcases hm k u hu with ⟨-, rfl⟩ | hu
      exacts [h.2.1, hp.signed k u hu]
    · show (p.transactions.insert (E.hash t) t).entries.length ≤ _
      rw [AList.insert_entries_of_neg h.1]
      exact h.2.2
  · exact hp

theorem Valid.removeTrans {p : MemPool Tx} (hp : Valid E p) (hs : List H256) :
    Valid E (p.removeTrans hs) := by
  have hm : ∀ k u, ⟨k, u⟩ ∈ (p.removeTrans hs).transactions.entries →
      ⟨k, u⟩ ∈ p.transactions.entries := fun k u h => by
    rw [removeTrans_entries] at h; exact List.mem_of_mem_filter h
  refine ⟨fun k u h => hp.keyed k u (hm k u h), fun k u h => hp.signed k u (hm k u h), ?_⟩
  have := List.length_filter_le (fun e => decide (e.1 ∉ hs)) p.transactions.entries
  simp only [size, removeTrans_entries] at this ⊢
  exact this.trans hp.bounded

theorem Valid.apply {p : MemPool Tx} (hp : Valid E p) : ∀ op, Valid E (p.apply E op)
  | .addWithCheck t => hp.addWithCheck t
  | .removeTrans hs => hp.removeTrans hs
  | .createContent | .getTrans _ | .exist _ | .size | .empty => hp

theorem Valid.run {p : MemPool Tx} (hp : Valid E p) (ops : List (PoolOp Tx)) :
    Valid E (p.run E ops) := by
  induction ops generalizing p with
  | nil => exact hp
  | cons op ops ih => exact ih (hp.apply op)

/-- Every pool built from `MemPool::new()` by any operations keys each entry by its
transaction's hash, holds only signed transactions, and has at most `POOL_SIZE_LIMIT`
entries. -/
theorem run_new_valid (ops : List (PoolOp Tx)) : Valid E ((new : MemPool Tx).run E ops) :=
  valid_new.run ops

/-- The content a valid pool gives: each transaction stored under its hash, and signed. -/
theorem Valid.createContent {p : MemPool Tx} (hp : Valid E p) {t : Tx}
    (ht : t ∈ (p.createContent E).trans) :
    p.transactions.lookup (E.hash t) = some t ∧ E.signCheck t = true := by
  rw [createContent_trans] at ht
  obtain ⟨⟨k, t⟩, he, rfl⟩ := List.mem_map.1 ht
  have hk := List.mem_of_mem_take he
  obtain rfl := hp.keyed k t hk
  exact ⟨AList.mem_lookup_iff.2 hk, hp.signed _ t hk⟩

/-- The transactions of the content of a valid pool have distinct hashes. -/
theorem Valid.createContent_nodup {p : MemPool Tx} (hp : Valid E p) :
    ((p.createContent E).trans.map E.hash).Nodup := by
  have hk : (p.createContent E).trans.map E.hash =
      (p.transactions.entries.take (min E.blockSizeLimit p.size)).map (·.1) := by
    rw [createContent_trans, List.map_map]
    exact List.map_congr_left fun e he => (hp.keyed e.1 e.2 (List.mem_of_mem_take he)).symm
  rw [hk]
  exact List.Nodup.sublist ((List.take_sublist _ _).map _) p.transactions.nodupKeys

theorem Reachable.valid {p : MemPool Tx} (h : Reachable E p) : Valid E p := by
  obtain ⟨ops, rfl⟩ := h
  exact valid_new.run ops

theorem Reachable.removeTrans {p : MemPool Tx} (h : Reachable E p) (hs : List H256) :
    Reachable E (p.removeTrans hs) := by
  obtain ⟨ops, rfl⟩ := h
  exact ⟨ops ++ [.removeTrans hs], by simp [run, List.foldl_append, apply]⟩

/-- On a valid pool, `get_trans` returns the transactions stored under those of the hashes
asked that are present, in the order asked: their hashes are exactly those hashes. -/
theorem Valid.getTrans_hashes {p : MemPool Tx} (hp : Valid E p) (hs : List H256) :
    (p.getTrans hs).map E.hash = hs.filter p.exist := by
  induction hs with
  | nil => rfl
  | cons h hs ih =>
    simp only [getTrans, List.filterMap_cons, List.filter_cons] at ih ⊢
    cases hl : p.transactions.lookup h with
    | none => simp [exist, hl, ih]
    | some t => simp [exist, hl, ih, (hp.keyed h t (AList.mem_lookup_iff.1 hl)).symm]

theorem getTrans_hashes_sample :
    let p : MemPool Nat := (new.addWithCheck sampleEnv 7).2
    Valid sampleEnv p ∧
      (p.getTrans [.ofByte 3, .ofByte 7]).map sampleEnv.hash =
        [H256.ofByte 3, .ofByte 7].filter p.exist :=
  ⟨valid_new.addWithCheck 7, Valid.getTrans_hashes (valid_new.addWithCheck 7) _⟩

/-- Asked for the hashes of the content `create_content` made from a valid pool, `get_trans`
gives back the content's transactions, in order. -/
theorem Valid.getTrans_createContent {p : MemPool Tx} (hp : Valid E p)
    (hE : ∀ t, E.storedHash t = E.hash t) :
    p.getTrans ((p.createContent E).getTransHashes E) = (p.createContent E).trans := by
  rw [getTrans, Content.getTransHashes, List.filterMap_map]
  exact (List.filterMap_congr fun t ht => by
    rw [Function.comp_apply, hE, (hp.createContent ht).1]).trans (List.filterMap_some _)

theorem getTrans_createContent_sample :
    let p : MemPool Nat :=
      (((new.addWithCheck sampleEnv 7).2.addWithCheck sampleEnv 8).2.addWithCheck sampleEnv 9).2
    Valid sampleEnv p ∧ (∀ t, sampleEnv.storedHash t = sampleEnv.hash t) ∧
      (p.createContent sampleEnv).trans = [9, 8] ∧
      p.getTrans ((p.createContent sampleEnv).getTransHashes sampleEnv) =
        (p.createContent sampleEnv).trans :=
  ⟨((valid_new.addWithCheck 7).addWithCheck 8).addWithCheck 9, fun _ => rfl, by decide,
    Valid.getTrans_createContent (((valid_new.addWithCheck 7).addWithCheck 8).addWithCheck 9)
      fun _ => rfl⟩

/-- `new_with_trans` stores under each hash the last transaction of the list with that hash:
a later duplicate replaces an earlier one. -/
theorem lookup_newWithTrans (trans : List Tx) (h : H256) :
    (newWithTrans E trans).transactions.lookup h = trans.reverse.find? fun t => E.hash t = h := by
  induction trans using List.reverseRecOn with
  | nil => rfl
  | append_singleton l t ih =>
    simp only [newWithTrans, List.foldl_append, List.foldl_cons, List.foldl_nil,
      List.reverse_append, List.reverse_cons, List.reverse_nil, List.nil_append,
      List.singleton_append, List.find?_cons] at ih ⊢
    by_cases ht : E.hash t = h
    · subst ht; simp [AList.lookup_insert]
    · simp [AList.lookup_insert_ne (Ne.symm ht), ht, ih]

end MemPool

end BitcoinClient
