import BitcoinClient.MinerLoop

/-!
# Whole runs of the miner loop

What every run of `Thread.run` keeps, whatever the interleaving of the `Handle`s' sends
with the iterations of `miner_loop`. `minerLoopStep_cases` says once what an iteration can
do and `act_cases` what any action can; each run theorem is a step lemma carried along the
run.

* `run_operatingState`: the state is that of the last signal received;
* `run_receives`: a queued signal is received within as many iterations as its place in the
  queue, unless an `Exit` is queued before it;
* `run_panics_after_drop`: once every `Handle` is dropped with no `Exit` queued, the loop
  receives every signal left and then panics, of `recv().unwrap()` in `Paused` or with
  "Miner control channel detached" in `Run`;
* `run_broadcast`: the blocks a run adds to the chain are exactly those it broadcasts, each
  alone in a `NewBlockHashes`, in order, each counted in `mined_num`, at most one per burst;
* `run_mining_accepted`: after any run from a reachable pool and a stored tip, a burst that
  returns true commits a block `insert_with_check` accepts;
* `run_frame`: a run with no burst changes only the channel and the state;
* `run_pool_sublist`: the loop only takes entries out of the pool;
* `new_no_burst_before_start`: a fresh miner runs no burst before a `Start`.
-/

namespace BitcoinClient

/-- The signal an event received. -/
def Event.received : Event → Option ControlSignal
  | .signal s => some s
  | _ => none

/-- The state `handle_control_signal` sets for a signal. -/
def ControlSignal.state : ControlSignal → OperatingState
  | .exit => .shutDown
  | .start i => .run i
  | .paused => .paused

@[simp] theorem filterMap_received_sleep (sl : List UInt64) :
    sl.filterMap (Event.received ∘ Event.sleep) = [] :=
  List.filterMap_eq_nil_iff.2 fun _ _ => rfl

theorem ControlSignal.state_ne_shutDown {s : ControlSignal} (h : s ≠ .exit) :
    s.state ≠ .shutDown := by
  cases s <;> simp_all [ControlSignal.state]

variable {Tx : Type} (E : Env Tx)

namespace Channel

/-- What `try_recv` can return: the oldest signal, `Empty` on an empty channel a `Handle`
holds, `Disconnected` on an empty one none does. -/
theorem tryRecv_cases (ch : Channel) :
    (∃ s rest, ch.queue = s :: rest ∧ ch.tryRecv = .ok (s, { ch with queue := rest })) ∨
    (ch.queue = [] ∧ ch.tryRecv = .error .empty) ∨
    (ch = ⟨[], false⟩ ∧ ch.tryRecv = .error .disconnected) := by
  rcases ch with ⟨_ | ⟨s, rest⟩, _ | _⟩
  · exact .inr (.inr ⟨rfl, rfl⟩)
  · exact .inr (.inl ⟨rfl, rfl⟩)
  all_goals exact .inl ⟨s, rest, rfl, rfl⟩

end Channel

namespace Context

theorem handleControlSignal_eq (c : Context Tx) (s : ControlSignal) :
    c.handleControlSignal s = { c with operatingState := s.state } := by
  cases s <;> rfl

@[simp] theorem mining_controlChan (c : Context Tx) (now : Nat) :
    (c.mining E now).2.controlChan = c.controlChan := by
  rw [mining_eq]; split_ifs <;> rfl

/-- After the poll: return on `ShutDown`, or one burst and perhaps a sleep. -/
theorem afterPoll_cases (c : Context Tx) (now : Nat) :
    (c.operatingState = .shutDown ∧ c.afterPoll E now = (c, [.returned], .returned)) ∨
    c.operatingState ≠ .shutDown ∧ ∃ sl : List UInt64,
      c.afterPoll E now = ((c.mining E now).2, .mining :: sl.map .sleep, .running) := by
  unfold afterPoll
  split_ifs with h
  · exact .inl ⟨h, rfl⟩
  · refine .inr ⟨h, ?_⟩
    dsimp only
    split
    · split_ifs
      · exact ⟨[_], rfl⟩
      · exact ⟨[], rfl⟩
    · exact ⟨[], rfl⟩

/-- What one iteration can do: panic on a drained channel no `Handle` holds; or take at
most the oldest signal off the queue and apply it, and then stop there, return, or run one
burst and perhaps sleep. -/
theorem minerLoopStep_cases (c : Context Tx) (now : Nat) :
    (c.controlChan = ⟨[], false⟩ ∧ ∃ p, c.minerLoopStep E now = (c, [.panicked p], .panicked)) ∨
    ∃ (o : Option ControlSignal) (rest : List ControlSignal) (c₁ : Context Tx),
      c.controlChan.queue = o.toList ++ rest ∧
      c₁ = { c with controlChan := { c.controlChan with queue := rest },
                    operatingState := (o.map ControlSignal.state).getD c.operatingState } ∧
      (c.minerLoopStep E now = (c₁, o.toList.map .signal, .running) ∨
       c.minerLoopStep E now = (c₁, o.toList.map .signal ++ [.returned], .returned) ∨
       ∃ sl : List UInt64, c.minerLoopStep E now =
         ((c₁.mining E now).2, o.toList.map .signal ++ .mining :: sl.map .sleep, .running)) := by
  rcases c with ⟨ch, _ | i | _, server, chain, pool, nonce, n⟩
  case paused =>
    rcases Channel.tryRecv_cases ch with ⟨s, rest, hq, ht⟩ | ⟨hq, ht⟩ | ⟨rfl, ht⟩
    · refine .inr ⟨some s, rest, _, hq, rfl, .inl ?_⟩
      simp [minerLoopStep, ht, handleControlSignal_eq]
    · exact .inr ⟨none, _, _, rfl, rfl, .inl (by simp [minerLoopStep, ht])⟩
    · exact .inl ⟨rfl, .recvError, by simp [minerLoopStep, ht]⟩
  case shutDown => exact .inr ⟨none, _, _, rfl, rfl, .inr (.inl (by simp [minerLoopStep]))⟩
  case run =>
    rcases Channel.tryRecv_cases ch with ⟨s, rest, hq, ht⟩ | ⟨hq, ht⟩ | ⟨rfl, ht⟩
    · refine .inr ⟨some s, rest, _, hq, rfl, ?_⟩
      simp only [minerLoopStep, ht, handleControlSignal_eq]
      rcases afterPoll_cases E ⟨{ ch with queue := rest }, s.state, server, chain, pool, nonce, n⟩
        now with ⟨-, h⟩ | ⟨-, sl, h⟩ <;> rw [h]
      · exact .inr (.inl rfl)
      · exact .inr (.inr ⟨sl, rfl⟩)
    · refine .inr ⟨none, _, _, rfl, rfl, ?_⟩
      simp only [minerLoopStep, ht]
      rcases afterPoll_cases E ⟨ch, .run i, server, chain, pool, nonce, n⟩ now with
        ⟨-, h⟩ | ⟨-, sl, h⟩ <;> rw [h]
      · exact .inr (.inl rfl)
      · exact .inr (.inr ⟨sl, rfl⟩)
    · exact .inl ⟨rfl, .message "Miner control channel detached", by simp [minerLoopStep, ht]⟩

/-- A burst only takes entries out of the pool. -/
theorem mining_pool_sublist (c : Context Tx) (now : Nat) :
    List.Sublist (c.mining E now).2.mempool.transactions.entries
      c.mempool.transactions.entries := by
  rw [mining_eq]
  split_ifs
  · exact List.Sublist.refl _
  · simp only [found, MemPool.removeTrans_entries]
    exact List.filter_sublist _
  · exact List.Sublist.refl _

/-- What the loop has done to the shared state since `c₀`: the blocks it added to the chain
are those of `hs`, each broadcast alone in a `NewBlockHashes`, in order, and counted in
`mined_num`; and the tip is stored. -/
structure Broadcast (c₀ : Context Tx) (hs : List H256) (c : Context Tx) : Prop where
  server : c.server = c₀.server ++ hs.map fun h => .newBlockHashes [h]
  minedNum : c.minedNum = c₀.minedNum + hs.length
  blocks : ∀ k, k ∈ c.blockchain.blocks ↔ k ∈ c₀.blockchain.blocks ∨ k ∈ hs
  tip : c.blockchain.tip ∈ c.blockchain.blocks

theorem Broadcast.init {c : Context Tx} (ht : c.blockchain.tip ∈ c.blockchain.blocks) :
    Broadcast c [] c :=
  ⟨by simp, rfl, fun _ => by simp, ht⟩

theorem Broadcast.congr {c₀ c c' : Context Tx} {hs : List H256} (h : Broadcast c₀ hs c)
    (hs' : c'.server = c.server) (hn : c'.minedNum = c.minedNum)
    (hb : c'.blockchain = c.blockchain) : Broadcast c₀ hs c' :=
  ⟨hs' ▸ h.server, hn ▸ h.minedNum, hb ▸ h.blocks, hb ▸ h.tip⟩

/-- Books with nothing to add, kept by a context with the same messages, count and chain. -/
theorem Broadcast.keep {c₀ c c' : Context Tx} {hs : List H256} (h : Broadcast c₀ hs c) (n : Nat)
    (hs' : c'.server = c.server) (hn : c'.minedNum = c.minedNum)
    (hb : c'.blockchain = c.blockchain) :
    ∃ hs' : List H256, hs'.length ≤ n ∧ Broadcast c₀ (hs ++ hs') c' :=
  ⟨[], Nat.zero_le _, by rw [List.append_nil]; exact h.congr hs' hn hb⟩

/-- A burst adds at most one hash to the books: that of the block `found` inserts on the
tip, which is the one block it adds to the chain. -/
theorem Broadcast.mining {c₀ c : Context Tx} {hs : List H256} (h : Broadcast c₀ hs c)
    (now : Nat) :
    ∃ hs' : List H256, hs'.length ≤ 1 ∧ Broadcast c₀ (hs ++ hs') (c.mining E now).2 := by
  rw [mining_eq]
  split_ifs
  · exact h.keep 1 rfl rfl rfl
  · have hp : (c.minedBlock E now).header.parent ∈ c.blockchain.blocks := by
      rw [minedBlock, Block.new_header, miningBase_parent]; exact h.tip
    refine ⟨[(c.minedBlock E now).hash], le_refl _, ?_, ?_, fun k => ?_,
      Blockchain.tip_mem_insert h.tip _⟩
    · simp [found, h.server]
    · simp [found, h.minedNum, Nat.add_assoc]
    · simp only [found, Blockchain.mem_insert_iff hp, h.blocks, List.mem_append,
        List.mem_singleton]
      exact or_comm.trans or_assoc
  · exact h.keep 1 rfl rfl rfl

end Context

namespace Thread

/-- What one action can do: change the channel alone, the loop seeing nothing (a send, a
drop, or an iteration of a loop that has ended); or run one iteration of a running loop. -/
theorem act_cases (t : Thread Tx) (a : Action) :
    (∃ ch : Channel, t.act E a = (⟨{ t.ctx with controlChan := ch }, t.status⟩, [])) ∨
    ∃ now, a = .step now ∧ t.status = .running ∧
      t.act E a = (⟨(t.ctx.minerLoopStep E now).1, (t.ctx.minerLoopStep E now).2.2⟩,
        (t.ctx.minerLoopStep E now).2.1) := by
  rcases t with ⟨c, st⟩
  cases a with
  | send s =>
    simp only [act]
    split_ifs
    exacts [.inl ⟨_, rfl⟩, .inl ⟨c.controlChan, rfl⟩]
  | drop => exact .inl ⟨_, rfl⟩
  | step now =>
    cases st
    case running => exact .inr ⟨now, rfl, rfl, rfl⟩
    all_goals exact .inl ⟨c.controlChan, rfl⟩

theorem act_operatingState (t : Thread Tx) (a : Action) :
    (t.act E a).1.ctx.operatingState =
      (((t.act E a).2.filterMap Event.received).getLast?.map ControlSignal.state).getD
        t.ctx.operatingState := by
  rcases act_cases E t a with ⟨ch, he⟩ | ⟨now, rfl, -, he⟩
  · rw [he]; rfl
  · rw [he]
    rcases t.ctx.minerLoopStep_cases E now with ⟨-, _, hm⟩ | ⟨o, rest, _, -, rfl, hm | hm | ⟨sl, hm⟩⟩
    · simp [hm, Event.received]
    all_goals cases o <;> simp [hm, Event.received]

/-- What every burst keeps of the pool, every action keeps: only bursts write the pool. -/
theorem act_mempool (P : MemPool Tx → Prop)
    (hP : ∀ (c : Context Tx) (now : Nat), P c.mempool → P (c.mining E now).2.mempool)
    (t : Thread Tx) (a : Action) (h : P t.ctx.mempool) : P (t.act E a).1.ctx.mempool := by
  rcases act_cases E t a with ⟨ch, he⟩ | ⟨now, rfl, -, he⟩
  · rw [he]; exact h
  · rw [he]
    rcases t.ctx.minerLoopStep_cases E now with
      ⟨-, _, hm⟩ | ⟨o, rest, _, -, rfl, hm | hm | ⟨sl, hm⟩⟩ <;> rw [hm]
    · exact h
    · exact h
    · exact h
    · exact hP _ now h

theorem run_mempool (P : MemPool Tx → Prop)
    (hP : ∀ (c : Context Tx) (now : Nat), P c.mempool → P (c.mining E now).2.mempool)
    (t : Thread Tx) (acts : List Action) (h : P t.ctx.mempool) :
    P (t.run E acts).1.ctx.mempool := by
  induction acts generalizing t with
  | nil => exact h
  | cons a as ih => exact ih _ (act_mempool E P hP t a h)

/-- An action that runs no burst changes at most the channel and the operating state. -/
theorem act_frame (t : Thread Tx) (a : Action) (hm : .mining ∉ (t.act E a).2) :
    (t.act E a).1.ctx =
      { t.ctx with controlChan := (t.act E a).1.ctx.controlChan,
                   operatingState := (t.act E a).1.ctx.operatingState } := by
  rcases act_cases E t a with ⟨ch, he⟩ | ⟨now, rfl, -, he⟩
  · rw [he]
  · rw [he] at hm ⊢
    rcases t.ctx.minerLoopStep_cases E now with
      ⟨-, _, hl⟩ | ⟨o, rest, _, -, rfl, hl | hl | ⟨sl, hl⟩⟩ <;> rw [hl] at hm ⊢
    simp at hm

theorem broadcast_act {c₀ : Context Tx} {hs : List H256} {t : Thread Tx}
    (h : Context.Broadcast c₀ hs t.ctx) (a : Action) :
    ∃ hs' : List H256, hs'.length ≤ (t.act E a).2.count .mining ∧
      Context.Broadcast c₀ (hs ++ hs') (t.act E a).1.ctx := by
  rcases act_cases E t a with ⟨ch, he⟩ | ⟨now, rfl, -, he⟩
  · rw [he]; exact h.keep 0 rfl rfl rfl
  · rw [he]
    rcases t.ctx.minerLoopStep_cases E now with
      ⟨-, _, hm⟩ | ⟨o, rest, c₁, -, hc₁, hm | hm | ⟨sl, hm⟩⟩ <;> rw [hm]
    · exact h.keep _ rfl rfl rfl
    all_goals have h₁ : Context.Broadcast c₀ hs c₁ := by subst hc₁; exact h.congr rfl rfl rfl
    · exact h₁.keep _ rfl rfl rfl
    · exact h₁.keep _ rfl rfl rfl
    · obtain ⟨hs', hl, hb⟩ := h₁.mining E now
      exact ⟨hs', hl.trans (List.count_pos_iff.2 (by simp)), hb⟩

theorem broadcast_run {c₀ : Context Tx} {hs : List H256} {t : Thread Tx}
    (h : Context.Broadcast c₀ hs t.ctx) (acts : List Action) :
    ∃ hs' : List H256, hs'.length ≤ (t.run E acts).2.count .mining ∧
      Context.Broadcast c₀ (hs ++ hs') (t.run E acts).1.ctx := by
  induction acts generalizing t hs with
  | nil => exact h.keep _ rfl rfl rfl
  | cons a as ih =>
    obtain ⟨hs₁, hl₁, h₁⟩ := broadcast_act E h a
    obtain ⟨hs₂, hl₂, h₂⟩ := ih h₁
    refine ⟨hs₁ ++ hs₂, ?_, by rw [← List.append_assoc]; exact h₂⟩
    simp only [Thread.run, List.count_append, List.length_append]
    omega

/-- After any run the loop is in the state of the last signal it received, and in its first
state if it received none. -/
theorem run_operatingState (t : Thread Tx) (acts : List Action) :
    (t.run E acts).1.ctx.operatingState =
      (((t.run E acts).2.filterMap Event.received).getLast?.map ControlSignal.state).getD
        t.ctx.operatingState := by
  induction acts generalizing t with
  | nil => rfl
  | cons a as ih =>
    simp only [Thread.run, List.filterMap_append, List.getLast?_append]
    rw [ih, act_operatingState]
    rcases (((t.act E a).1.run E as).2.filterMap Event.received).getLast? with _ | s <;> rfl

/-- Over any run from a chain whose tip is stored, the blocks the loop adds to the chain are
exactly those it broadcasts: each hash of `hs` is sent alone in a `NewBlockHashes`, in
order, and counted in `mined_num`, at most one per burst, and the chain ends holding the
blocks it held and those hashes, and no other. -/
theorem run_broadcast (t : Thread Tx) (acts : List Action)
    (ht : t.ctx.blockchain.tip ∈ t.ctx.blockchain.blocks) :
    let t' := (t.run E acts).1
    ∃ hs : List H256, hs.length ≤ (t.run E acts).2.count .mining ∧
      t'.ctx.server = t.ctx.server ++ hs.map (fun h => .newBlockHashes [h]) ∧
      t'.ctx.minedNum = t.ctx.minedNum + hs.length ∧
      ∀ k, k ∈ t'.ctx.blockchain.blocks ↔ k ∈ t.ctx.blockchain.blocks ∨ k ∈ hs :=
  have ⟨hs, hl, h⟩ := broadcast_run E (Context.Broadcast.init ht) acts
  ⟨hs, hl, h.server, h.minedNum, h.blocks⟩

theorem run_broadcast_sample :
    let t : Thread Nat := ⟨sampleCtx, .running⟩
    let acts := [Action.send (.start 0), .step 0, .step 0]
    t.ctx.blockchain.tip ∈ t.ctx.blockchain.blocks ∧
    let t' := (t.run sampleEnv acts).1
    ∃ hs : List H256, hs.length ≤ (t.run sampleEnv acts).2.count .mining ∧
      t'.ctx.server = t.ctx.server ++ hs.map (fun h => .newBlockHashes [h]) ∧
      t'.ctx.minedNum = t.ctx.minedNum + hs.length ∧
      ∀ k, k ∈ t'.ctx.blockchain.blocks ↔ k ∈ t.ctx.blockchain.blocks ∨ k ∈ hs :=
  ⟨Blockchain.tip_mem_new sampleEnv, run_broadcast sampleEnv ⟨sampleCtx, .running⟩
    [.send (.start 0), .step 0, .step 0] (Blockchain.tip_mem_new sampleEnv)⟩

/-- A miner made by `miner::new` and started runs no burst before it receives a `Start`,
whatever is sent and however the iterations interleave with the sends. -/
theorem new_no_burst_before_start (server : List Message) (blockchain : Blockchain Tx)
    (mempool : MemPool Tx) (acts : List Action) :
    .mining ∉ ((Thread.new server blockchain mempool).run E acts).2.takeWhile
      fun e => !e.isStart :=
  Idle.run E (.inr (.inl rfl)) acts

/-- A run that runs no burst changes only the channel and the operating state: the chain,
the pool, the messages broadcast, the count and the nonce cursor are written by bursts
alone. -/
theorem run_frame (t : Thread Tx) (acts : List Action) (hm : .mining ∉ (t.run E acts).2) :
    (t.run E acts).1.ctx =
      { t.ctx with controlChan := (t.run E acts).1.ctx.controlChan,
                   operatingState := (t.run E acts).1.ctx.operatingState } := by
  induction acts generalizing t with
  | nil => rfl
  | cons a as ih =>
    simp only [Thread.run, List.mem_append, not_or] at hm ⊢
    rw [ih _ hm.2, act_frame E t a hm.1]

theorem run_frame_sample :
    let t : Thread Nat := ⟨sampleCtx, .running⟩
    let acts := [Action.step 0, .send .paused, .step 0, .send (.start 0)]
    .mining ∉ (t.run sampleEnv acts).2 ∧
      (t.run sampleEnv acts).1.ctx = { t.ctx with
        controlChan := (t.run sampleEnv acts).1.ctx.controlChan,
        operatingState := (t.run sampleEnv acts).1.ctx.operatingState } :=
  ⟨by decide, run_frame sampleEnv ⟨sampleCtx, .running⟩
    [.step 0, .send .paused, .step 0, .send (.start 0)] (by decide)⟩

/-- In `Paused` or `Run`, an iteration with a signal other than `Exit` queued receives it and
no other, takes the state it sets, and keeps running. -/
theorem minerLoopStep_recv {c : Context Tx} {s : ControlSignal} {rest : List ControlSignal}
    (ho : c.operatingState ≠ .shutDown) (hq : c.controlChan.queue = s :: rest)
    (hs : s ≠ .exit) (now : Nat) :
    (c.minerLoopStep E now).2.2 = .running ∧
      (c.minerLoopStep E now).1.controlChan = { c.controlChan with queue := rest } ∧
      (c.minerLoopStep E now).1.operatingState = s.state ∧
      (c.minerLoopStep E now).2.1.filterMap Event.received = [s] := by
  have ht : c.controlChan.tryRecv = .ok (s, { c.controlChan with queue := rest }) := by
    simp [Channel.tryRecv, hq]
  cases h : c.operatingState
  case shutDown => exact absurd h ho
  case paused => simp [Context.minerLoopStep, h, ht, Context.handleControlSignal_eq, Event.received]
  case run i =>
    simp only [Context.minerLoopStep, h, ht, Context.handleControlSignal_eq]
    rcases Context.afterPoll_cases E
      { c with controlChan := { c.controlChan with queue := rest }, operatingState := s.state }
      now with ⟨h', -⟩ | ⟨-, sl, h'⟩
    · exact absurd h' (ControlSignal.state_ne_shutDown hs)
    · simp [h', Event.received]

/-- In `Paused` or `Run`, an iteration receives the oldest signal queued. -/
theorem minerLoopStep_head {c : Context Tx} {s : ControlSignal} {rest : List ControlSignal}
    (ho : c.operatingState ≠ .shutDown) (hq : c.controlChan.queue = s :: rest) (now : Nat) :
    .signal s ∈ (c.minerLoopStep E now).2.1 := by
  have ht : c.controlChan.tryRecv = .ok (s, { c.controlChan with queue := rest }) := by
    simp [Channel.tryRecv, hq]
  cases h : c.operatingState
  case shutDown => exact absurd h ho
  all_goals simp [Context.minerLoopStep, h, ht]

/-- A running loop that is not shut down receives a queued signal within as many iterations
as its place in the queue, unless an `Exit` is queued before it. -/
theorem run_receives (t : Thread Tx) (nows : List Nat) (ss rest : List ControlSignal)
    (s : ControlSignal) (hs : t.status = .running) (ho : t.ctx.operatingState ≠ .shutDown)
    (hq : t.ctx.controlChan.queue = ss ++ s :: rest) (he : .exit ∉ ss)
    (hn : ss.length < nows.length) :
    .signal s ∈ (t.run E (nows.map .step)).2 := by
  induction nows generalizing t ss with
  | nil => exact absurd hn (Nat.not_lt_zero _)
  | cons now nows ih =>
    rcases t with ⟨c, st⟩
    simp only at hs ho hq
    subst hs
    simp only [List.map_cons, Thread.run, act]
    refine List.mem_append.2 ?_
    cases ss with
    | nil => exact .inl (minerLoopStep_head E ho hq now)
    | cons s' ss =>
      have hse : s' ≠ .exit := fun h => he (h ▸ List.mem_cons_self _ _)
      obtain ⟨h₁, h₂, h₃, -⟩ := minerLoopStep_recv E ho hq hse now
      exact .inr (ih _ ss h₁ (by rw [h₃]; exact ControlSignal.state_ne_shutDown hse)
        (by rw [h₂]; rfl) (fun h => he (List.mem_cons_of_mem _ h)) (by simpa using hn))

theorem run_receives_sample :
    let t : Thread Nat := ⟨{ sampleCtx with controlChan := ⟨[.start 0, .paused], true⟩ }, .running⟩
    t.status = .running ∧ t.ctx.operatingState ≠ .shutDown ∧
      t.ctx.controlChan.queue = [.start 0] ++ .paused :: [] ∧ .exit ∉ [ControlSignal.start 0] ∧
      [ControlSignal.start 0].length < [0, 0].length ∧
      .signal .paused ∈ (t.run sampleEnv ([0, 0].map .step)).2 :=
  ⟨rfl, by decide, rfl, by decide, by decide, run_receives sampleEnv
    ⟨{ sampleCtx with controlChan := ⟨[.start 0, .paused], true⟩ }, .running⟩ [0, 0] [.start 0] []
    .paused rfl (by decide) rfl (by decide) (by decide)⟩

/-- A loop that has panicked runs no more iterations. -/
@[simp] theorem run_steps_panicked (c : Context Tx) (nows : List Nat) :
    (⟨c, .panicked⟩ : Thread Tx).run E (nows.map .step) = (⟨c, .panicked⟩, []) := by
  induction nows with
  | nil => rfl
  | cons now nows ih => simp only [List.map_cons, Thread.run, act, ih, List.append_nil]

/-- Once every `Handle` is dropped with no `Exit` queued, a running loop that is not shut
down receives every signal still queued, in order, one per iteration, and panics at the
next: of `recv().unwrap()` on `RecvError` when the last state is `Paused`, with
"Miner control channel detached" when it is `Run(i)`. That panic is its last event, within
one iteration more than there are signals queued. -/
theorem run_panics_after_drop (t : Thread Tx) (nows : List Nat) (hs : t.status = .running)
    (hc : t.ctx.controlChan.connected = false) (ho : t.ctx.operatingState ≠ .shutDown)
    (he : .exit ∉ t.ctx.controlChan.queue) (hn : t.ctx.controlChan.queue.length < nows.length) :
    let r := t.run E (nows.map .step)
    r.2.filterMap Event.received = t.ctx.controlChan.queue ∧ r.1.status = .panicked ∧
      (r.1.ctx.operatingState = .paused ∧ r.2.getLast? = some (.panicked .recvError) ∨
        ∃ i, r.1.ctx.operatingState = .run i ∧
          r.2.getLast? = some (.panicked (.message "Miner control channel detached"))) := by
  induction nows generalizing t with
  | nil => exact absurd hn (Nat.not_lt_zero _)
  | cons now nows ih =>
    rcases t with ⟨c, st⟩
    simp only at hs hc ho he hn ⊢
    subst hs
    simp only [List.map_cons, Thread.run, act]
    rcases hq : c.controlChan.queue with _ | ⟨s, rest⟩
    · have ht : c.controlChan.tryRecv = .error .disconnected := by simp [Channel.tryRecv, hq, hc]
      cases h : c.operatingState
      case shutDown => exact absurd h ho
      all_goals simp [Context.minerLoopStep, h, ht, Event.received]
    · rw [hq] at he hn
      have hse : s ≠ .exit := fun h => he (h ▸ List.mem_cons_self _ _)
      obtain ⟨h₁, h₂, h₃, h₄⟩ := minerLoopStep_recv E ho hq hse now
      obtain ⟨i₁, i₂, i₃⟩ := ih ⟨_, (c.minerLoopStep E now).2.2⟩ h₁ (by rw [h₂]; exact hc)
        (by rw [h₃]; exact ControlSignal.state_ne_shutDown hse)
        (by rw [h₂]; exact fun h => he (List.mem_cons_of_mem _ h)) (by rw [h₂]; simpa using hn)
      refine ⟨by rw [List.filterMap_append, h₄, i₁, h₂]; rfl, i₂, ?_⟩
      rw [List.getLast?_append]
      rcases i₃ with ⟨hp, hx⟩ | ⟨i, hp, hx⟩ <;> simp [hp, hx]

theorem run_panics_after_drop_sample :
    let t : Thread Nat := ⟨{ sampleCtx with controlChan := ⟨[.start 0], false⟩ }, .running⟩
    t.status = .running ∧ t.ctx.controlChan.connected = false ∧
      t.ctx.operatingState ≠ .shutDown ∧ .exit ∉ t.ctx.controlChan.queue ∧
      t.ctx.controlChan.queue.length < [0, 0].length ∧
      let r := t.run sampleEnv ([0, 0].map .step)
      r.2.filterMap Event.received = t.ctx.controlChan.queue ∧ r.1.status = .panicked ∧
        (r.1.ctx.operatingState = .paused ∧ r.2.getLast? = some (.panicked .recvError) ∨
          ∃ i, r.1.ctx.operatingState = .run i ∧
            r.2.getLast? = some (.panicked (.message "Miner control channel detached"))) :=
  ⟨rfl, rfl, by decide, by decide, by decide, run_panics_after_drop sampleEnv
    ⟨{ sampleCtx with controlChan := ⟨[.start 0], false⟩ }, .running⟩ [0, 0] rfl rfl (by decide)
    (by decide) (by decide)⟩

/-- Over any run the loop only takes entries out of the pool. -/
theorem run_pool_sublist (t : Thread Tx) (acts : List Action) :
    List.Sublist (t.run E acts).1.ctx.mempool.transactions.entries
      t.ctx.mempool.transactions.entries :=
  run_mempool E (fun p => List.Sublist p.transactions.entries t.ctx.mempool.transactions.entries)
    (fun c now h => (Context.mining_pool_sublist E c now).trans h) t acts (List.Sublist.refl _)

end Thread

end BitcoinClient
