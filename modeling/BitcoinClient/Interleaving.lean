import BitcoinClient.Miner

/-!
# A burst against the relay of a received block

`mining` and `found` hold the chain lock and the mempool lock in four separate sections:
(M1) read the tip and difficulty; (M2) snapshot `create_content()`, then probe with no
lock held; (M3) insert the mined block; (M4) `remove_trans` of its transaction hashes,
then count and broadcast it. A network worker, not among the sources, handles a received
block `B'` the way `found` commits one: (W1) `insert_with_check(B')`, and on success (W2)
`remove_trans` of its hashes. Each section is one atomic step of `System.step`, and a
schedule, a list of `Actor`s, says which party moves next.

* `burst_sequential`: the miner's four steps with no worker step between them are
  `Context::mining`;
* `relay_commit_repeats`: in the order W1, M1, M2, W2, M3, M4 the burst commits a block
  whose parent is `B'` and which holds a transaction of `B'`;
* `relay_commit_disjoint`: when the snapshot M2 is not taken between W1 and W2, the
  committed block extends the tip the chain had before both, or holds no transaction of
  `B'`. Each step but such a snapshot keeps the invariant `System.Inv` (`Inv.minerStep`,
  `Inv.workerStep`), and so does every run (`Inv.run`);
* `run_pool_evicted`: in every interleaving the pool is the first one without exactly the
  hashes evicted so far, the committed block's and, once W2 has run, those of `B'`: each
  step removes what it adds to `System.evicted` (`poolWithout_step`).
-/

namespace BitcoinClient

/-- Where a burst is: after which of its sections. -/
inductive Burst (Tx : Type)
  | start
  /-- M1: the tip and difficulty read. -/
  | read (tip difficulty : H256)
  /-- M2: a block mined from the snapshot. -/
  | found (block : Block Tx)
  /-- M3: the block inserted. -/
  | inserted (block : Block Tx)
  /-- M4: its transactions evicted; `mining` returns true. -/
  | committed (block : Block Tx)
  /-- M2: an empty pool, or no nonce met the target; `mining` returns false. -/
  | failed
  deriving DecidableEq

/-- Modelled from the spec: where a worker handling a received block is (the network
worker is not among the sources). -/
inductive Relay
  | received
  /-- W1: `insert_with_check` returned true. -/
  | accepted
  /-- W1: `insert_with_check` returned false, and the worker is done. -/
  | rejected
  /-- W2: the block's transactions removed from the pool. -/
  | evicted
  deriving DecidableEq

inductive Actor
  | miner
  | worker
  deriving DecidableEq

structure System (Tx : Type) where
  /-- The miner's context; its chain and pool are the ones the worker shares. -/
  ctx : Context Tx
  burst : Burst Tx
  relay : Relay

variable {Tx : Type} (E : Env Tx)

namespace System

/-- The next section of the burst, at the clock reading `now`. -/
def minerStep (s : System Tx) (now : Nat) : System Tx :=
  match s.burst with
  | .start => { s with burst := .read s.ctx.blockchain.tip s.ctx.blockchain.difficulty }
  | .read tip difficulty =>
    if s.ctx.mempool.size = 0 then { s with burst := .failed } else
    let content := s.ctx.mempool.createContent E
    let header := Header.new tip s.ctx.nonce now difficulty (content.merkleRoot E)
    match miningBase E header difficulty with
    | (true, header) => { s with burst := .found (Block.new E header content) }
    | (false, header) => { s with ctx := { s.ctx with nonce := header.nonce }, burst := .failed }
  | .found block =>
    { s with ctx := { s.ctx with blockchain := s.ctx.blockchain.insert block },
             burst := .inserted block }
  | .inserted block =>
    { s with ctx := { s.ctx with mempool := s.ctx.mempool.removeTrans
                                   (block.content.getTransHashes E),
                                 minedNum := s.ctx.minedNum + 1,
                                 server := s.ctx.server ++ [.newBlockHashes [block.hash]],
                                 nonce := 0 },
             burst := .committed block }
  | .committed _ | .failed => s

/-- Modelled from the spec: the next section of a worker handling the received block
`received`: `insert_with_check`, then, on success, `remove_trans` of its hashes. -/
def workerStep (s : System Tx) (received : Block Tx) : System Tx :=
  match s.relay with
  | .received =>
    match s.ctx.blockchain.insertWithCheck E received with
    | (true, blockchain) => { s with ctx := { s.ctx with blockchain }, relay := .accepted }
    | (false, _) => { s with relay := .rejected }
  | .accepted =>
    { s with ctx := { s.ctx with mempool := s.ctx.mempool.removeTrans
                                   (received.content.getTransHashes E) },
             relay := .evicted }
  | .rejected | .evicted => s

def step (s : System Tx) (now : Nat) (received : Block Tx) : Actor → System Tx
  | .miner => s.minerStep E now
  | .worker => s.workerStep E received

def run (s : System Tx) (now : Nat) (received : Block Tx) : List Actor → System Tx
  | [] => s
  | a :: as => (s.step E now received a).run now received as

/-- The burst's snapshot (M2) is not taken while the worker has inserted the received
block and not yet evicted its transactions. -/
def snapshotOutsideRelay (s : System Tx) (now : Nat) (received : Block Tx) :
    List Actor → Bool
  | [] => true
  | a :: as =>
    !(a == .miner && s.burst matches .read _ _ && s.relay == .accepted) &&
      (s.step E now received a).snapshotOutsideRelay now received as

/-! ## The sections of one burst -/

/-- The four sections of a burst with no worker step between them are `mining`: the same
context after them, and a committed block exactly when `mining` returns true. -/
theorem burst_sequential (c : Context Tx) (r : Relay) (now : Nat) (received : Block Tx) :
    let s := (⟨c, .start, r⟩ : System Tx).run E now received [.miner, .miner, .miner, .miner]
    s.ctx = (c.mining E now).2 ∧ s.relay = r ∧
      (s.burst matches .committed _) = (c.mining E now).1 := by
  dsimp only [run, step, minerStep, Context.mining]
  by_cases h0 : c.mempool.size = 0
  · simp [h0]
  · simp only [if_neg h0]
    rcases miningBase E (.new c.blockchain.tip c.nonce now c.blockchain.difficulty
      ((c.mempool.createContent E).merkleRoot E)) c.blockchain.difficulty with ⟨_ | _, h⟩ <;>
      simp [h0, Context.found]

end System

/-! ## A snapshot between W1 and W2 -/

/-- A block a peer sends: on the genesis block of the sample chain, holding transaction `7`,
which the sample pool holds, and transaction `9`. -/
def sampleReceived : Block Nat :=
  .new sampleEnv (.new .zero 0 0 (genDifficultyArray 0) (sampleEnv.merkleRoot [7, 9])) ⟨[7, 9]⟩

/-- The sample miner before a burst, and a worker that has just received `sampleReceived`. -/
def sampleSystem : System Nat := ⟨sampleCtx, .start, .received⟩

/-- As `sampleSystem`, with transactions `7`, `8` and `9` in the pool. -/
def sampleSystem3 : System Nat := ⟨sampleCtx3, .start, .received⟩

/-- Not every interleaving keeps a block committed on the received block free of the received
block's transactions: in the order W1, M1, M2, W2, M3, M4 the miner reads `B'` as its tip
but snapshots the pool before the worker evicts transaction `7`. -/
theorem relay_commit_repeats :
    ¬ ∀ (s : System Nat) (received B : Block Nat) (sched : List Actor),
      s.burst = .start → s.relay = .received →
      (∃ t ∈ received.content.trans, s.ctx.mempool.exist (sampleEnv.hash t)) →
      (s.run sampleEnv 0 received sched).burst = .committed B →
      B.header.parent = received.hash →
      ∀ t ∈ B.content.trans, t ∉ received.content.trans :=
  fun h => h sampleSystem sampleReceived
    (.new sampleEnv (.new sampleReceived.hash 0 0 (genDifficultyArray 0) (.ofByte 1)) ⟨[7]⟩)
    [.worker, .miner, .miner, .worker, .miner, .miner] rfl rfl ⟨7, by decide, by decide⟩
    (by decide) rfl 7 (by decide) (by decide)

/-! ## Snapshots outside the relay -/

/-- The block a burst holds once M2 has mined one. -/
def Burst.block? : Burst Tx → Option (Block Tx)
  | .found b | .inserted b | .committed b => some b
  | _ => none

namespace System

/-- What a run keeps from a valid pool while no snapshot is taken between W1 and W2; `tip`
is the tip before either party moved. -/
structure Inv (tip : H256) (received : Block Tx) (s : System Tx) : Prop where
  valid : s.ctx.mempool.Valid E
  /-- After W2 no hash of the received block is a key. -/
  evicted : s.relay = .evicted →
    ∀ h ∈ received.content.getTransHashes E, s.ctx.mempool.exist h = false
  /-- Until W1 inserts the received block, M1 reads the first tip. -/
  start : s.burst = .start → s.relay = .received ∨ s.relay = .rejected →
    s.ctx.blockchain.tip = tip
  read : ∀ t d, s.burst = .read t d → s.relay = .received ∨ s.relay = .rejected → t = tip
  /-- A mined block extends the first tip, or holds no transaction of the received block. -/
  mined : ∀ b, s.burst.block? = some b →
    b.header.parent = tip ∨ ∀ t ∈ b.content.trans, t ∉ received.content.trans

variable {E} {tip : H256} {received : Block Tx}

theorem Inv.init {s : System Tx} (hv : s.ctx.mempool.Valid E) (hs : s.burst = .start)
    (hr : s.relay = .received) : s.Inv E s.ctx.blockchain.tip received :=
  ⟨hv, fun h => absurd (hr.symm.trans h) nofun, fun _ _ => rfl,
    fun _ _ h => absurd (hs.symm.trans h) nofun, fun _ h => by simp [hs, Burst.block?] at h⟩

theorem Inv.workerStep {s : System Tx} (hi : s.Inv E tip received) :
    (s.workerStep E received).Inv E tip received := by
  rcases s with ⟨c, b, r⟩
  cases r with
  | received =>
    dsimp only [System.workerStep]
    rcases c.blockchain.insertWithCheck E received with ⟨_ | _, c'⟩
    · exact ⟨hi.valid, nofun, fun hb _ => hi.start hb (.inl rfl),
        fun t d ht _ => hi.read t d ht (.inl rfl), hi.mined⟩
    · exact ⟨hi.valid, nofun, nofun, nofun, hi.mined⟩
  | accepted =>
    exact ⟨hi.valid.removeTrans _, fun _ _ hh => MemPool.exist_removeTrans hh, nofun, nofun,
      hi.mined⟩
  | rejected | evicted => exact hi

/-- M2 from a valid pool: a block mined on a tip read before W1 extends the first tip; one
mined after W2 has none of the received block's transactions, each of its own being stored
under its hash. -/
theorem Inv.minerStep (hE : ∀ t, E.storedHash t = E.hash t) {s : System Tx}
    (hi : s.Inv E tip received) (now : Nat)
    (hs : (s.burst matches .read _ _ && s.relay == .accepted) = false) :
    (s.minerStep E now).Inv E tip received := by
  rcases s with ⟨c, b, r⟩
  cases b with
  | start =>
    exact ⟨hi.valid, hi.evicted, nofun, fun _ _ h hr => by cases h; exact hi.start rfl hr, nofun⟩
  | read t d =>
    dsimp only [System.minerStep]
    split_ifs
    · exact ⟨hi.valid, hi.evicted, nofun, nofun, nofun⟩
    split; swap
    · exact ⟨hi.valid, hi.evicted, nofun, nofun, nofun⟩
    rename_i h hm
    refine ⟨hi.valid, hi.evicted, nofun, nofun, fun _ hb => ?_⟩
    cases hb
    cases r with
    | received | rejected =>
      have hp : h.parent = t := (congrArg (·.2.parent) hm).symm.trans (miningBase_parent E _ _)
      exact .inl (hp.trans (hi.read t d rfl (by simp)))
    | accepted => simp at hs
    | evicted =>
      refine .inr fun x hx hx' => ?_
      have he := hi.evicted rfl (E.storedHash x) (List.mem_map_of_mem _ hx')
      rw [hE] at he
      simp [MemPool.exist, (hi.valid.createContent hx).1] at he
  | found b => exact ⟨hi.valid, hi.evicted, nofun, nofun, hi.mined⟩
  | inserted b =>
    exact ⟨hi.valid.removeTrans _,
      fun he h hh => MemPool.exist_removeTrans_of_eq_false (hi.evicted he h hh) _, nofun, nofun,
      hi.mined⟩
  | committed _ | failed => exact hi

theorem Inv.run (hE : ∀ t, E.storedHash t = E.hash t) {s : System Tx}
    (hi : s.Inv E tip received) (now : Nat) :
    ∀ sched, s.snapshotOutsideRelay E now received sched = true →
      (s.run E now received sched).Inv E tip received
  | [], _ => hi
  | a :: as, h => by
    rw [snapshotOutsideRelay, Bool.and_eq_true, Bool.not_eq_true'] at h
    cases a
    · exact (hi.minerStep hE now h.1).run hE now as h.2
    · exact hi.workerStep.run hE now as h.2

end System

/-- In every interleaving of one burst with the relay of one received block `B'` whose
snapshot M2 is not taken between W1 and W2, from a pool reachable from `MemPool::new()`
and with each stored hash the transaction's `hash()`: the committed block extends the tip
the chain had before both, or holds no transaction of `B'`. -/
theorem relay_commit_disjoint (s : System Tx) (received B : Block Tx) (now : Nat)
    (sched : List Actor) (hE : ∀ t, E.storedHash t = E.hash t)
    (hp : s.ctx.mempool.Reachable E) (hs : s.burst = .start) (hr : s.relay = .received)
    (ho : s.snapshotOutsideRelay E now received sched = true)
    (hc : (s.run E now received sched).burst = .committed B) :
    B.header.parent = s.ctx.blockchain.tip ∨ ∀ t ∈ B.content.trans, t ∉ received.content.trans :=
  ((System.Inv.init hp.valid hs hr).run hE now sched ho).mined B (by rw [hc]; rfl)

theorem relay_commit_disjoint_sample :
    let s := sampleSystem3; let received := sampleReceived
    let sched := [Actor.worker, .worker, .miner, .miner, .miner, .miner]
    let B := (s.run sampleEnv 0 received [.worker, .worker]).ctx.minedBlock sampleEnv 0
    (∀ t, sampleEnv.storedHash t = sampleEnv.hash t) ∧ s.ctx.mempool.Reachable sampleEnv ∧
    s.burst = .start ∧ s.relay = .received ∧
    s.snapshotOutsideRelay sampleEnv 0 received sched = true ∧
    (s.run sampleEnv 0 received sched).burst = .committed B ∧
    B.header.parent = received.hash ∧ B.content.trans = [8] ∧
    (B.header.parent = s.ctx.blockchain.tip ∨ ∀ t ∈ B.content.trans, t ∉ received.content.trans) :=
  ⟨fun _ => rfl, sampleCtx3_reachable, rfl, rfl, by decide, by decide, by decide, by decide,
    relay_commit_disjoint sampleEnv sampleSystem3 sampleReceived
      ((sampleSystem3.run sampleEnv 0 sampleReceived [.worker, .worker]).ctx.minedBlock sampleEnv 0)
      0 [.worker, .worker, .miner, .miner, .miner, .miner] (fun _ => rfl) sampleCtx3_reachable rfl
      rfl (by decide) (by decide)⟩

/-! ## What the pool loses -/

namespace System

/-- The transaction hashes evicted so far: the committed block's, then the received
block's once the worker has evicted them. -/
def evicted (received : Block Tx) (s : System Tx) : List H256 :=
  (match s.burst with
    | .committed b => b.content.getTransHashes E
    | _ => []) ++
  (if s.relay = .evicted then received.content.getTransHashes E else [])

/-- A pool as `pool` without the entries under `hs`. -/
def PoolWithout (pool : MemPool Tx) (hs : List H256) (p : MemPool Tx) : Prop :=
  p.transactions.entries = pool.transactions.entries.filter fun e => e.1 ∉ hs

theorem poolWithout_removeTrans {pool p : MemPool Tx} {hs l : List H256}
    (h : PoolWithout pool hs p) (hs' : List H256) (hl : ∀ x, x ∈ l ↔ x ∈ hs' ∨ x ∈ hs) :
    PoolWithout pool l (p.removeTrans hs') := by
  rw [PoolWithout, MemPool.removeTrans_entries, h, List.filter_filter]
  exact List.filter_congr fun e _ => by simp [hl, Bool.and_comm]

variable {E} {received : Block Tx} {pool : MemPool Tx}

/-- Each step removes from the pool exactly what it adds to `evicted`. -/
theorem poolWithout_step {s : System Tx}
    (h : PoolWithout pool (s.evicted E received) s.ctx.mempool) (now : Nat) (a : Actor) :
    PoolWithout pool ((s.step E now received a).evicted E received)
      (s.step E now received a).ctx.mempool := by
  rcases s with ⟨c, b, r⟩
  cases a with
  | miner =>
    cases b with
    | read t d =>
      dsimp only [step, System.minerStep]
      split_ifs
      · exact h
      split <;> exact h
    | inserted b =>
      exact poolWithout_removeTrans h _ fun x => by simp [evicted, step, System.minerStep]
    | start | found _ | committed _ | failed => exact h
  | worker =>
    cases r with
    | received =>
      dsimp only [step, System.workerStep]
      split <;> exact h
    | accepted =>
      exact poolWithout_removeTrans h _ fun x => by
        simp [evicted, step, System.workerStep, or_comm]
    | rejected | evicted => exact h

theorem PoolWithout.run {s : System Tx}
    (h : PoolWithout pool (s.evicted E received) s.ctx.mempool) (now : Nat) :
    ∀ sched, PoolWithout pool ((s.run E now received sched).evicted E received)
      (s.run E now received sched).ctx.mempool
  | [] => h
  | a :: as => (poolWithout_step h now a).run now as

end System

/-- In every interleaving of a burst with the relay of a received block `B'`, both from
their start, the pool ends as it began without exactly the entries under the hashes
evicted: the committed block's once M4 has run, and those of `B'` once W2 has run, in
whichever order the two evictions come. -/
theorem run_pool_evicted (s : System Tx) (received : Block Tx) (now : Nat) (sched : List Actor)
    (hs : s.burst = .start) (hr : s.relay = .received) :
    (s.run E now received sched).ctx.mempool.transactions.entries =
      s.ctx.mempool.transactions.entries.filter fun e =>
        e.1 ∉ (s.run E now received sched).evicted E received :=
  System.PoolWithout.run (by simp [System.PoolWithout, System.evicted, hs, hr]) now sched

theorem run_pool_evicted_sample :
    let s := sampleSystem; let received := sampleReceived
    let sched := [Actor.miner, .miner, .worker, .worker, .miner, .miner]
    s.burst = .start ∧ s.relay = .received ∧
    (s.run sampleEnv 0 received sched).ctx.mempool.transactions.entries =
      s.ctx.mempool.transactions.entries.filter fun e =>
        e.1 ∉ (s.run sampleEnv 0 received sched).evicted sampleEnv received :=
  ⟨rfl, rfl, run_pool_evicted sampleEnv sampleSystem sampleReceived 0
    [.miner, .miner, .worker, .worker, .miner, .miner] rfl rfl⟩

end BitcoinClient
