import BitcoinClient.Miner

/-!
# The control loop of the miner

`miner_loop` runs iterations. In `Paused` it blocks on `recv`, applies the signal and
starts the next iteration; in `ShutDown` it returns; in `Run(i)` it polls with `try_recv`
and applies a signal if one is queued, returns if the state is now `ShutDown`, and
otherwise runs a burst and then sleeps `i` microseconds if the state is `Run(i)` with
`i ≠ 0`. A drained channel no `Handle` holds is a panic: of `recv().unwrap()` in `Paused`,
of `panic!("Miner control channel detached")` in `Run`. The panics of `lock().unwrap()` on
a poisoned mutex and of the clock's `unwrap()` in `mining` are not modelled.

The loop and the `Handle`s run on different threads. An `Action` is what may happen next:
a signal sent, the last `Handle` dropped, or one iteration of the loop at a clock reading.
`Thread.run` runs any list of them and collects the `Event`s of the loop. The loop reads
the channel once per iteration, so signals sent during an iteration act as if sent after
it, and one step per iteration covers every interleaving of sends with the loop.

* `exit_final`: once `Exit` is received, no burst runs and no signal is received again,
  the state stays `ShutDown`, and the next iteration returns;
* `pause_burst`: a `Paused` received by `try_recv` in `Run` is followed by one burst in the
  same iteration;
* `pause_final`: after a `Paused` is received, at most that one burst runs before a
  `Start` is received.
-/

namespace BitcoinClient

inductive TryRecvError
  | empty
  | disconnected

namespace Channel

def send (ch : Channel) (s : ControlSignal) : Channel := { ch with queue := ch.queue ++ [s] }

/-- `try_recv`: the oldest signal, `Empty`, or `Disconnected` once no `Handle` is left and
nothing is queued. `recv` is the same but waits on `Empty`. -/
def tryRecv (ch : Channel) : Except TryRecvError (ControlSignal × Channel) :=
  match ch.queue with
  | s :: rest => .ok (s, { ch with queue := rest })
  | [] => .error (if ch.connected then .empty else .disconnected)

end Channel

/-- Why `miner_loop` panicked. -/
inductive Panic
  /-- `recv().unwrap()` in `Paused` on `Err(RecvError)`. -/
  | recvError
  /-- `panic!` with its message. -/
  | message (msg : String)
  deriving DecidableEq

/-- What the loop does. -/
inductive Event
  /-- `handle_control_signal(s)`. -/
  | signal (s : ControlSignal)
  /-- A call of `mining()`. -/
  | mining
  | sleep (i : UInt64)
  | returned
  | panicked (p : Panic)
  deriving DecidableEq

def Event.isStart : Event → Bool
  | .signal (.start _) => true
  | _ => false

inductive Status
  | running
  | returned
  | panicked
  deriving DecidableEq

/-- The miner thread: its `Context` and whether `miner_loop` is still running. -/
structure Thread (Tx : Type) where
  ctx : Context Tx
  status : Status

inductive Action
  /-- `Handle::start`, `pause`, `exit` or `stop`. -/
  | send (s : ControlSignal)
  /-- The last `Handle` is dropped. -/
  | drop
  /-- One iteration of `miner_loop`, the clock at `now`. -/
  | step (now : Nat)

variable {Tx : Type} (E : Env Tx)

namespace Context

def handleControlSignal (c : Context Tx) : ControlSignal → Context Tx
  | .exit => { c with operatingState := .shutDown }
  | .start i => { c with operatingState := .run i }
  | .paused => { c with operatingState := .paused }

/-- The rest of an iteration after the poll in `Run`: return on `ShutDown`, otherwise a
burst, then the sleep. -/
def afterPoll (c : Context Tx) (now : Nat) : Context Tx × List Event × Status :=
  if c.operatingState = .shutDown then (c, [.returned], .returned) else
  let c := (c.mining E now).2
  (c, .mining :: match c.operatingState with
    | .run i => if i ≠ 0 then [.sleep i] else []
    | _ => [], .running)

/-- One iteration of `miner_loop`. In `Paused` an empty open channel blocks: the iteration
makes no progress until a signal is sent. -/
def minerLoopStep (c : Context Tx) (now : Nat) : Context Tx × List Event × Status :=
  match c.operatingState with
  | .paused =>
    match c.controlChan.tryRecv with
    | .ok (s, ch) => ({ c with controlChan := ch }.handleControlSignal s, [.signal s], .running)
    | .error .empty => (c, [], .running)
    | .error .disconnected => (c, [.panicked .recvError], .panicked)
  | .shutDown => (c, [.returned], .returned)
  | .run _ =>
    match c.controlChan.tryRecv with
    | .ok (s, ch) =>
      let r := ({ c with controlChan := ch }.handleControlSignal s).afterPoll E now
      (r.1, .signal s :: r.2.1, r.2.2)
    | .error .empty => c.afterPoll E now
    | .error .disconnected =>
      (c, [.panicked (.message "Miner control channel detached")], .panicked)

@[simp] theorem mining_operatingState (c : Context Tx) (now : Nat) :
    (c.mining E now).2.operatingState = c.operatingState := by
  rw [mining_eq]; split_ifs <;> rfl

@[simp] theorem handleControlSignal_exit (c : Context Tx) :
    (c.handleControlSignal .exit).operatingState = .shutDown := rfl
@[simp] theorem handleControlSignal_paused (c : Context Tx) :
    (c.handleControlSignal .paused).operatingState = .paused := rfl

theorem afterPoll_shutDown {c : Context Tx} (h : c.operatingState = .shutDown) (now : Nat) :
    c.afterPoll E now = (c, [.returned], .returned) := if_pos h

/-- In `Paused` after the poll, the iteration still runs its burst, and does not sleep. -/
theorem afterPoll_paused {c : Context Tx} (h : c.operatingState = .paused) (now : Nat) :
    (c.afterPoll E now).2 = ([.mining], .running) ∧
      (c.afterPoll E now).1.operatingState = .paused := by
  simp [afterPoll, h]

theorem signal_not_mem_afterPoll (c : Context Tx) (now : Nat) (s : ControlSignal) :
    .signal s ∉ (c.afterPoll E now).2.1 := by
  unfold afterPoll
  split_ifs
  · simp
  · simp only [List.mem_cons, reduceCtorEq, false_or]
    split <;> [split_ifs <;> simp; simp]

end Context

namespace Thread

/-- `miner::new` then `Context::start`: a running loop, paused, on an empty channel. -/
def new (server : List Message) (blockchain : Blockchain Tx) (mempool : MemPool Tx) :
    Thread Tx :=
  ⟨.new server blockchain mempool, .running⟩

def act (t : Thread Tx) : Action → Thread Tx × List Event
  | .send s =>
    (if t.ctx.controlChan.connected
      then { t with ctx := { t.ctx with controlChan := t.ctx.controlChan.send s } } else t, [])
  | .drop =>
    ({ t with ctx := { t.ctx with
        controlChan := { t.ctx.controlChan with connected := false } } }, [])
  | .step now =>
    match t.status with
    | .running => let r := t.ctx.minerLoopStep E now; (⟨r.1, r.2.2⟩, r.2.1)
    | _ => (t, [])

def run (t : Thread Tx) : List Action → Thread Tx × List Event
  | [] => (t, [])
  | a :: as =>
    let r := (t.act E a).1.run as
    (r.1, (t.act E a).2 ++ r.2)

/-- An event of a run comes from one action, taken in some state; what follows it is the
rest of that action's events and those of the actions after it. -/
theorem run_eq_append_cons {t : Thread Tx} {acts : List Action} {pre rest : List Event}
    {x : Event} (h : (t.run E acts).2 = pre ++ x :: rest) :
    ∃ (t₁ : Thread Tx) (a : Action) (acts₂ : List Action) (evs₁ evs₂ : List Event),
      (t₁.act E a).2 = evs₁ ++ x :: evs₂ ∧
      rest = evs₂ ++ ((t₁.act E a).1.run E acts₂).2 ∧
      (t.run E acts).1 = ((t₁.act E a).1.run E acts₂).1 := by
  induction acts generalizing t pre with
  | nil => cases pre <;> cases h
  | cons a as ih =>
    rcases List.append_eq_append_iff.1 h with ⟨a', rfl, h'⟩ | ⟨c', he, h'⟩
    · exact ih h'
    · cases c' with
      | nil => exact @ih _ [] h'.symm
      | cons y c'' =>
        obtain ⟨rfl, rfl⟩ := List.cons_eq_cons.1 h'
        exact ⟨t, a, as, pre, c'', he, rfl, rfl⟩

theorem eq_of_append_cons_eq_cons {α : Type} {x y : α} {l evs₁ evs₂ : List α}
    (h : evs₁ ++ x :: evs₂ = y :: l) (hx : x ∉ l) : x = y ∧ evs₂ = l := by
  cases evs₁ with
  | nil => exact List.cons_eq_cons.1 h
  | cons z evs₁ =>
    obtain ⟨-, rfl⟩ := List.cons_eq_cons.1 h
    exact absurd (List.mem_append_right _ (List.mem_cons_self _ _)) hx

/-- A step that receives a signal starts with it; it then continues (in `Paused`), or runs
the rest of the iteration after the poll (in `Run`). -/
theorem act_signal {t : Thread Tx} {a : Action} {s : ControlSignal} {evs₁ evs₂ : List Event}
    (h : (t.act E a).2 = evs₁ ++ .signal s :: evs₂) :
    ∃ c : Context Tx, (evs₂ = [] ∧ (t.act E a).1 = ⟨c.handleControlSignal s, .running⟩) ∨
      ∃ now, evs₂ = ((c.handleControlSignal s).afterPoll E now).2.1 ∧
        (t.act E a).1 = ⟨((c.handleControlSignal s).afterPoll E now).1,
          ((c.handleControlSignal s).afterPoll E now).2.2⟩ := by
  have hm : Event.signal s ∈ (t.act E a).2 := h ▸ List.mem_append_right _ (List.mem_cons_self _ _)
  rcases t with ⟨c, st⟩
  cases a with
  | send _ | drop => simp [Thread.act] at hm
  | step now =>
    cases st
    case returned | panicked => simp [Thread.act] at hm
    simp only [Thread.act] at h hm ⊢
    cases ho : c.operatingState with
    | shutDown => simp [Context.minerLoopStep, ho] at hm
    | paused =>
      rcases hq : c.controlChan.tryRecv with ⟨e⟩ | ⟨s', ch⟩ <;>
        simp only [Context.minerLoopStep, ho, hq] at h hm ⊢
      · cases e <;> simp at hm
      · obtain ⟨⟨⟩, rfl⟩ := eq_of_append_cons_eq_cons h.symm (List.not_mem_nil _)
        exact ⟨_, .inl ⟨rfl, rfl⟩⟩
    | run i =>
      rcases hq : c.controlChan.tryRecv with ⟨_ | _⟩ | ⟨s', ch⟩ <;>
        simp only [Context.minerLoopStep, ho, hq] at h hm ⊢
      · exact absurd hm (c.signal_not_mem_afterPoll E _ _)
      · simp at hm
      · obtain ⟨⟨⟩, rfl⟩ :=
          eq_of_append_cons_eq_cons h.symm (Context.signal_not_mem_afterPoll E _ _ _)
        exact ⟨_, .inr ⟨now, rfl, rfl⟩⟩

/-- Shut down: the state is `ShutDown`, and the loop has returned or will at its next
iteration. -/
structure ShutDown (t : Thread Tx) : Prop where
  state : t.ctx.operatingState = .shutDown
  alive : t.status ≠ .panicked

theorem ShutDown.act {t : Thread Tx} (h : ShutDown t) (a : Action) :
    ShutDown (t.act E a).1 ∧ ∀ e ∈ (t.act E a).2, e = .returned := by
  rcases t with ⟨c, st⟩
  obtain ⟨hs, hp⟩ := h
  cases a with
  | send s => simp only [Thread.act]; split_ifs <;> exact ⟨⟨hs, hp⟩, by simp⟩
  | drop => exact ⟨⟨hs, hp⟩, by simp [Thread.act]⟩
  | step now =>
    cases st
    · simp only at hs
      refine ⟨⟨?_, ?_⟩, ?_⟩ <;> simp [Thread.act, Context.minerLoopStep, hs]
    · exact ⟨⟨hs, hp⟩, by simp [Thread.act]⟩
    · exact absurd rfl hp

theorem ShutDown.run {t : Thread Tx} (h : ShutDown t) (acts : List Action) :
    ShutDown (t.run E acts).1 ∧ ∀ e ∈ (t.run E acts).2, e = .returned := by
  induction acts generalizing t with
  | nil => exact ⟨h, by simp [Thread.run]⟩
  | cons a as ih =>
    obtain ⟨h₁, he⟩ := h.act E a
    obtain ⟨h₂, he'⟩ := ih h₁
    exact ⟨h₂, fun e hm => (List.mem_append.1 hm).elim (he e) (he' e)⟩

theorem ShutDown.step_returned {t : Thread Tx} (h : ShutDown t) (now : Nat) :
    (t.act E (.step now)).1.status = .returned := by
  rcases t with ⟨c, st⟩
  obtain ⟨hs, hp⟩ := h
  cases st
  · simp only at hs
    simp [Thread.act, Context.minerLoopStep, hs]
  · rfl
  · exact absurd rfl hp

/-- No burst can come before a `Start` is received: the loop is paused or shut down, or has
ended. -/
def Idle (t : Thread Tx) : Prop :=
  t.status ≠ .running ∨ t.ctx.operatingState = .paused ∨ t.ctx.operatingState = .shutDown

/-- From an idle loop a step runs no burst, and either receives `Start` and does nothing
else, or leaves the loop idle. -/
theorem Idle.act {t : Thread Tx} (h : Idle t) (a : Action) :
    .mining ∉ (t.act E a).2 ∧
      ((∃ i, (t.act E a).2 = [.signal (.start i)]) ∨ Idle (t.act E a).1) := by
  rcases t with ⟨c, st⟩
  cases a with
  | send s => simp only [Thread.act]; split_ifs <;> exact ⟨by simp, .inr h⟩
  | drop => exact ⟨by simp [Thread.act], .inr h⟩
  | step now =>
    cases st
    case returned | panicked => exact ⟨by simp [Thread.act], .inr h⟩
    simp only [Thread.act]
    rcases h with h | h | h <;> simp only at h
    · exact absurd rfl h
    · rcases hq : c.controlChan.tryRecv with ⟨_ | _⟩ | ⟨s, ch⟩ <;>
        simp only [Context.minerLoopStep, h, hq]
      · exact ⟨by simp, .inr (.inr (.inl h))⟩
      · exact ⟨by simp, .inr (.inl (by simp))⟩
      · cases s
        · exact ⟨by simp, .inl ⟨_, rfl⟩⟩
        · exact ⟨by simp, .inr (.inr (.inr rfl))⟩
        · exact ⟨by simp, .inr (.inr (.inl rfl))⟩
    · simp only [Context.minerLoopStep, h]
      exact ⟨by simp, .inr (.inl (by simp))⟩

/-- From an idle loop no burst runs before a `Start` is received. -/
theorem Idle.run {t : Thread Tx} (h : Idle t) (acts : List Action) :
    .mining ∉ (t.run E acts).2.takeWhile fun e => !e.isStart := by
  induction acts generalizing t with
  | nil => simp [Thread.run]
  | cons a as ih =>
    obtain ⟨hm, ⟨i, he⟩ | hi⟩ := h.act E a
    · simp [Thread.run, he, Event.isStart]
    · simp only [Thread.run, List.takeWhile_append]
      split_ifs
      · exact fun hx => (List.mem_append.1 hx).elim hm (ih hi)
      · exact fun hx => hm ((List.takeWhile_sublist _).subset hx)

/-- After a step that receives `Paused`, the loop is idle, and the rest of the step is
nothing (in `Paused`) or one burst (in `Run`). -/
theorem act_paused {t : Thread Tx} {a : Action} {evs₁ evs₂ : List Event}
    (h : (t.act E a).2 = evs₁ ++ .signal .paused :: evs₂) :
    Idle (t.act E a).1 ∧ (evs₂ = [] ∨ evs₂ = [.mining]) := by
  obtain ⟨c, ⟨rfl, he⟩ | ⟨now, rfl, he⟩⟩ := act_signal E h
  · rw [he]; exact ⟨.inr (.inl rfl), .inl rfl⟩
  · obtain ⟨h₁, h₂⟩ := Context.afterPoll_paused E (c.handleControlSignal_paused) now
    rw [he, h₁]
    exact ⟨.inr (.inl h₂), .inr rfl⟩

/-- In `Run`, a `Paused` that `try_recv` receives is followed by a burst in the same
iteration: only `ShutDown` is checked before it. -/
theorem pause_burst (t : Thread Tx) (i : UInt64) (now : Nat) (hs : t.status = .running)
    (hr : t.ctx.operatingState = .run i) (hq : t.ctx.controlChan = ⟨[], true⟩) :
    (t.run E [.send .paused, .step now]).2 = [.signal .paused, .mining] := by
  rcases t with ⟨c, st⟩
  simp only at hs hr hq
  subst hs
  simp [Thread.run, Thread.act, hq, Channel.send, Context.minerLoopStep, hr, Channel.tryRecv,
    Context.handleControlSignal, Context.afterPoll]

/-- Not every run is free of bursts between a received `Paused` and the next `Start`:
started, then paused while running, the sample miner receives `Paused` by `try_recv` and
runs a burst in the same iteration. -/
theorem burst_after_pause :
    ¬ ∀ (acts : List Action) (pre rest : List Event),
      ((⟨sampleCtx, .running⟩ : Thread Nat).run sampleEnv acts).2 =
        pre ++ .signal .paused :: rest → .mining ∉ rest.takeWhile fun e => !e.isStart :=
  fun h => h [.send (.start 0), .step 0, .send .paused, .step 0] [.signal (.start 0)] [.mining]
    (by decide) (by decide)

/-- After a `Paused` is received, at most one burst runs before a `Start` is received: the
one of the same iteration, right after it, when `try_recv` in `Run` received it. -/
theorem pause_final (t : Thread Tx) (acts : List Action) (pre rest : List Event)
    (h : (t.run E acts).2 = pre ++ .signal .paused :: rest) :
    .mining ∉ (rest.takeWhile fun e => !e.isStart).drop 1 := by
  obtain ⟨t₁, a, acts₂, evs₁, evs₂, hs, rfl, -⟩ := run_eq_append_cons E h
  obtain ⟨hi, rfl | rfl⟩ := act_paused E hs
  · exact fun hx => hi.run E acts₂ (List.mem_of_mem_drop hx)
  · simpa [Event.isStart] using hi.run E acts₂

theorem pause_final_sample :
    let t : Thread Nat := ⟨sampleCtx, .running⟩
    let acts := [Action.send (.start 0), .step 0, .send .paused, .step 0]
    (t.run sampleEnv acts).2 = [.signal (.start 0)] ++ .signal .paused :: [.mining] ∧
      .mining ∉ (([Event.mining]).takeWhile fun e => !e.isStart).drop 1 :=
  ⟨by decide, pause_final sampleEnv ⟨sampleCtx, .running⟩
    [.send (.start 0), .step 0, .send .paused, .step 0] [.signal (.start 0)] [.mining] (by decide)⟩

/-- Once `Exit` is received, in `Paused` or in `Run`, the loop runs no burst and receives
no signal again: every later event is its return. The state stays `ShutDown`, and the
next iteration returns. -/
theorem exit_final (t : Thread Tx) (acts : List Action) (pre rest : List Event)
    (h : (t.run E acts).2 = pre ++ .signal .exit :: rest) :
    (∀ e ∈ rest, e = .returned) ∧ (t.run E acts).1.ctx.operatingState = .shutDown ∧
      ∀ now, ((t.run E acts).1.act E (.step now)).1.status = .returned := by
  obtain ⟨t₁, a, acts₂, evs₁, evs₂, hs, rfl, hf⟩ := run_eq_append_cons E h
  obtain ⟨c, ⟨rfl, he⟩ | ⟨now, rfl, he⟩⟩ := act_signal E hs
  all_goals
    rw [hf]
    try rw [Context.afterPoll_shutDown E (c.handleControlSignal_exit)] at he ⊢
    have hd : ShutDown (t₁.act E a).1 := by rw [he]; exact ⟨rfl, by simp⟩
    obtain ⟨hd', hr⟩ := hd.run E acts₂
    exact ⟨by simpa using hr, hd'.state, hd'.step_returned E⟩

theorem exit_final_sample :
    let t : Thread Nat := ⟨sampleCtx, .running⟩
    let acts := [Action.send (.start 0), .step 0, .send .exit, .step 0]
    (t.run sampleEnv acts).2 = [.signal (.start 0)] ++ .signal .exit :: [.returned] ∧
      (∀ e ∈ [Event.returned], e = .returned) ∧
      (t.run sampleEnv acts).1.ctx.operatingState = .shutDown ∧
      ∀ now, ((t.run sampleEnv acts).1.act sampleEnv (.step now)).1.status = .returned :=
  ⟨by decide, exit_final sampleEnv ⟨sampleCtx, .running⟩
    [.send (.start 0), .step 0, .send .exit, .step 0] [.signal (.start 0)] [.returned] (by decide)⟩

end Thread

end BitcoinClient
