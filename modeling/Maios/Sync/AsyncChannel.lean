import Maios.Library.Log
import Maios.Library.Run
import Maios.Library.Word

/-!
# The buffered channel

Senders and receivers exchange messages through a bounded queue. A sender that finds the queue full
waits; when it is woken, it runs a closure that tries to push the message again and then looks
whether the channel is still connected. A receiver that finds the queue empty waits in the same way.

Every call of the channel is a process of its own here, with a number, and takes one atomic step at
a time: a load or a store of the status, a push, a pop, or a change of a count. A waiting call may
run its closure again at any time; this includes the times at which it is notified. A message in
the queue carries the number of the call that sent it.

## Main results

* `channel_delivers` — what is received was sent, once and in order
-/

namespace Maios.AsyncChannel

open Function

inductive ChannelStatus where
  | connected
  | senderDisconnected
  | receiverDisconnected
  deriving DecidableEq, Repr

inductive Error where
  | wouldBlock
  | channelDisconnected
  deriving DecidableEq, Repr

/-- A message with the number of the call that sends it. -/
abbrev Item (μ : Type*) := ℕ × μ

structure Channel (μ : Type*) where
  queue : List (Item μ)
  channelStatus : ChannelStatus
  senderCount : ℕ
  receiverCount : ℕ
  /-- All messages that ever entered the queue, in order. -/
  entered : List (Item μ)
  /-- All messages that ever left it, in order, with the calls that took them. -/
  popped : List (ℕ × Item μ)

variable {μ : Type*}

namespace Channel

def isDisconnected (c : Channel μ) : Bool := c.channelStatus ≠ .connected

/-- `push` of the bounded queue. -/
def push (c : Channel μ) (capacity : ℕ) (item : Item μ) : Option (Channel μ) :=
  if c.queue.length < capacity then
    some { c with queue := c.queue ++ [item], entered := c.entered ++ [item] }
  else none

/-- `pop` of the bounded queue, by the call `t`. -/
def pop (c : Channel μ) (t : ℕ) : Option (Item μ × Channel μ) :=
  match c.queue with
  | [] => none
  | item :: rest => some (item, { c with queue := rest, popped := c.popped ++ [(t, item)] })

end Channel

/-- Where a call is. The flag `blocking` tells `send` and `receive` from `try_send` and
`try_receive`. -/
inductive Call (μ : Type*) where
  | unused
  /-- `try_send`: load the status. -/
  | loadStatus (blocking : Bool) (m : μ)
  /-- `try_send`: store that the channel is connected. -/
  | reconnect (blocking : Bool) (m : μ)
  | push (blocking : Bool) (m : μ)
  | notifyReceivers (m : μ)
  /-- `send`: run the closure. -/
  | sendClosure (m : μ)
  /-- The end of the closure, where the status is loaded again. -/
  | recheck (m : μ) (pushed : Bool)
  | sent (m : μ) (r : Except Error Unit)
  /-- `try_receive`: pop a message. -/
  | pop (blocking : Bool)
  | receiveStatus (blocking : Bool)
  | receiveReconnect (blocking : Bool)
  | notifySenders (item : Item μ)
  /-- `receive`: run the closure. -/
  | receiveClosure
  | receiveRecheck
  | received (r : Except Error (Item μ))
  | addSender
  | addReceiver
  | dropSender
  | dropReceiver
  | storeStatus (status : ChannelStatus)
  | finished
  deriving DecidableEq

namespace Call

/-- `try_receive` found no message. -/
def noMessage (blocking : Bool) : Call μ :=
  if blocking then .receiveClosure else .received (.error .wouldBlock)

/-- The next step of the call `t`. -/
def step (capacity t : ℕ) (call : Call μ) (c : Channel μ) : Call μ × Channel μ :=
  match call with
  | .loadStatus blocking m =>
    match c.channelStatus with
    | .senderDisconnected => (.reconnect blocking m, c)
    | .receiverDisconnected => (.sent m (.error .channelDisconnected), c)
    | .connected => (.push blocking m, c)
  | .reconnect blocking m => (.push blocking m, { c with channelStatus := .connected })
  | .push blocking m =>
    match c.push capacity (t, m) with
    | some c' => (.notifyReceivers m, c')
    | none => (if blocking then .sendClosure m else .sent m (.error .wouldBlock), c)
  | .notifyReceivers m => (.sent m (.ok ()), c)
  | .sendClosure m =>
    match c.push capacity (t, m) with
    | some c' => (.recheck m true, c')
    | none => (.recheck m false, c)
  | .recheck m pushed =>
    if c.isDisconnected then (.sent m (.error .channelDisconnected), c)
    else (if pushed then .notifyReceivers m else .sendClosure m, c)
  | .pop blocking =>
    match c.pop t with
    | some (item, c') => (.notifySenders item, c')
    | none => (.receiveStatus blocking, c)
  | .receiveStatus blocking =>
    match c.channelStatus with
    | .receiverDisconnected => (.receiveReconnect blocking, c)
    | .senderDisconnected => (.received (.error .channelDisconnected), c)
    | .connected => (noMessage blocking, c)
  | .receiveReconnect blocking => (noMessage blocking, { c with channelStatus := .connected })
  | .notifySenders item => (.received (.ok item), c)
  | .receiveClosure =>
    match c.pop t with
    | some (item, c') => (.notifySenders item, c')
    | none => (.receiveRecheck, c)
  | .receiveRecheck =>
    (if c.isDisconnected then .received (.error .channelDisconnected) else .receiveClosure, c)
  | .addSender =>
    (if c.senderCount = 0 then .storeStatus .connected else .finished,
      { c with senderCount := wrap (c.senderCount + 1) })
  | .addReceiver =>
    (if c.receiverCount = 0 then .storeStatus .connected else .finished,
      { c with receiverCount := wrap (c.receiverCount + 1) })
  | .dropSender =>
    (if c.senderCount = 1 then .storeStatus .senderDisconnected else .finished,
      { c with senderCount := wrapSub c.senderCount 1 })
  | .dropReceiver =>
    (if c.receiverCount = 1 then .storeStatus .receiverDisconnected else .finished,
      { c with receiverCount := wrapSub c.receiverCount 1 })
  | .storeStatus status => (.finished, { c with channelStatus := status })
  | .unused => (.unused, c)
  | .sent m r => (.sent m r, c)
  | .received r => (.received r, c)
  | .finished => (.finished, c)

/-- The message that the call has pushed, if it did not fail. -/
def pushed : Call μ → Option μ
  | .notifyReceivers m | .recheck m true | .sent m (.ok _) => some m
  | _ => none

/-- The message that the call has popped. -/
def took : Call μ → Option (Item μ)
  | .notifySenders item | .received (.ok item) => some item
  | _ => none

end Call

/-- The functions of the endpoints. The clones and the functions that make an endpoint of the other
kind come to `addSender` and `addReceiver`. -/
inductive Request (μ : Type*) where
  | send (m : μ)
  | trySend (m : μ)
  | receive
  | tryReceive
  | addSender
  | addReceiver
  | dropSender
  | dropReceiver

/-- Where a call of the function begins. -/
def Request.entry : Request μ → Call μ
  | send m => .loadStatus true m
  | trySend m => .loadStatus false m
  | receive => .pop true
  | tryReceive => .pop false
  | addSender => .addSender
  | addReceiver => .addReceiver
  | dropSender => .dropSender
  | dropReceiver => .dropReceiver

structure System (μ : Type*) where
  channel : Channel μ
  calls : ℕ → Call μ

/-- A call begins, under a number that has not been used, or takes its next step. -/
inductive Op (μ : Type*) where
  | call (t : ℕ) (f : Request μ)
  | step (t : ℕ)

def step (capacity : ℕ) (s : System μ) : Op μ → System μ
  | .call t f =>
    match s.calls t with
    | .unused => { s with calls := Function.update s.calls t f.entry }
    | _ => s
  | .step t =>
    let r := (s.calls t).step capacity t s.channel
    ⟨r.2, Function.update s.calls t r.1⟩

/-- `new_channel` -/
def newChannel (μ : Type*) : System μ := ⟨⟨[], .connected, 1, 1, [], []⟩, fun _ => .unused⟩

/-- A closure that has pushed its message finds the channel connected. -/
def StillConnected (s : System μ) (op : Op μ) : Prop :=
  ∀ t m, op = .step t → s.calls t = .recheck m true → s.channel.channelStatus = .connected

/-! ### What a step does -/

section Step

variable {capacity t : ℕ} {c c' : Channel μ} {call : Call μ} {item : Item μ}

theorem push_eq_some (h : c.push capacity item = some c') :
    c' = { c with queue := c.queue ++ [item], entered := c.entered ++ [item] } := by
  rw [Channel.push] at h
  split_ifs at h
  exact (Option.some.inj h).symm

theorem pop_eq_some (h : c.pop t = some (item, c')) :
    c.queue = item :: c'.queue ∧
      c' = { c with queue := c'.queue, popped := c.popped ++ [(t, item)] } := by
  rw [Channel.pop] at h
  rcases hq : c.queue with _ | ⟨first, rest⟩ <;> rw [hq] at h
  · cases h
  cases h
  exact ⟨rfl, rfl⟩

namespace Call

/-- The step neither pushes nor pops. -/
def Quiet (call : Call μ) (c : Channel μ) (r : Call μ × Channel μ) : Prop :=
  r.1.pushed = call.pushed ∧ r.1.took = call.took ∧ r.2.queue = c.queue ∧
    r.2.entered = c.entered ∧ r.2.popped = c.popped

/-- The step pushes the message of the call. -/
def Pushes (t : ℕ) (call : Call μ) (c : Channel μ) (r : Call μ × Channel μ) : Prop :=
  ∃ m, call.pushed = none ∧ r.1.pushed = some m ∧ r.1.took = call.took ∧
    r.2.queue = c.queue ++ [(t, m)] ∧ r.2.entered = c.entered ++ [(t, m)] ∧
    r.2.popped = c.popped

/-- The step pops a message. -/
def Pops (t : ℕ) (call : Call μ) (c : Channel μ) (r : Call μ × Channel μ) : Prop :=
  ∃ item, call.took = none ∧ r.1.took = some item ∧ r.1.pushed = call.pushed ∧
    c.queue = item :: r.2.queue ∧ r.2.entered = c.entered ∧
    r.2.popped = c.popped ++ [(t, item)]

theorem pushes_of_push {r : Call μ × Channel μ} {m : μ} (hpush : c.push capacity (t, m) = some r.2)
    (h : call.pushed = none) (h' : r.1.pushed = some m) (htook : r.1.took = call.took) :
    call.Pushes t c r := by
  obtain ⟨call', c'⟩ := r
  obtain rfl := push_eq_some hpush
  exact ⟨m, h, h', htook, rfl, rfl, rfl⟩

/-- **What a step can do**, except where it fails although it has pushed. -/
theorem step_cases
    (hconn : ∀ m, call = .recheck m true → c.channelStatus = .connected) :
    call.Quiet c (call.step capacity t c) ∨ call.Pushes t c (call.step capacity t c) ∨
      call.Pops t c (call.step capacity t c) := by
  have pops : ∀ {item c'}, c.pop t = some (item, c') → call.took = none → call.pushed = none →
      call.Pops t c (.notifySenders item, c') := by
    intro item c' hpop htook hpushed
    obtain ⟨hqueue, hc'⟩ := pop_eq_some hpop
    refine ⟨item, htook, rfl, hpushed.symm, hqueue, ?_, ?_⟩ <;> rw [hc']
  cases call with rw [step]
  | loadStatus b m =>
    cases c.channelStatus <;> exact .inl ⟨rfl, rfl, rfl, rfl, rfl⟩
  | push b m =>
    cases hpush : c.push capacity (t, m) with
    | none => cases b <;> exact .inl ⟨rfl, rfl, rfl, rfl, rfl⟩
    | some c' => exact .inr (.inl (pushes_of_push hpush rfl rfl rfl))
  | sendClosure m =>
    cases hpush : c.push capacity (t, m) with
    | none => exact .inl ⟨rfl, rfl, rfl, rfl, rfl⟩
    | some c' => exact .inr (.inl (pushes_of_push hpush rfl rfl rfl))
  | recheck m pushed =>
    cases pushed with
    | true =>
      have : c.isDisconnected = false := by
        rw [Channel.isDisconnected, hconn m rfl]
        rfl
      rw [this]
      exact .inl ⟨rfl, rfl, rfl, rfl, rfl⟩
    | false => cases c.isDisconnected <;> exact .inl ⟨rfl, rfl, rfl, rfl, rfl⟩
  | pop _ | receiveClosure =>
    cases hpop : c.pop t with
    | none => exact .inl ⟨rfl, rfl, rfl, rfl, rfl⟩
    | some r => exact .inr (.inr (pops hpop rfl rfl))
  | receiveStatus b =>
    cases c.channelStatus <;> cases b <;> exact .inl ⟨rfl, rfl, rfl, rfl, rfl⟩
  | receiveReconnect b => cases b <;> exact .inl ⟨rfl, rfl, rfl, rfl, rfl⟩
  | receiveRecheck =>
    cases c.isDisconnected <;> exact .inl ⟨rfl, rfl, rfl, rfl, rfl⟩
  | addSender | addReceiver | dropSender | dropReceiver =>
    split_ifs <;> exact .inl ⟨rfl, rfl, rfl, rfl, rfl⟩
  | _ => exact .inl ⟨rfl, rfl, rfl, rfl, rfl⟩

end Call

end Step

/-! ### Whole runs -/

/-- The histories of the queue and the calls fit together. -/
structure Inv (s : System μ) : Prop where
  fifo : s.channel.entered = s.channel.popped.map Prod.snd ++ s.channel.queue
  entered : Logged (fun t => (s.calls t).pushed) s.channel.entered
  popped : Logged (fun t => (s.calls t).took) s.channel.popped

section Inv

variable {capacity t : ℕ} {s : System μ}

/-- A step of the call `t` that leads to `call'` and `c'`. -/
theorem Inv.replace (h : Inv s) {call' : Call μ} {c' : Channel μ}
    (hcases : (s.calls t).Quiet s.channel (call', c') ∨
      (s.calls t).Pushes t s.channel (call', c') ∨ (s.calls t).Pops t s.channel (call', c')) :
    Inv ⟨c', update s.calls t call'⟩ := by
  have hfifo := h.fifo
  rcases hcases with ⟨hpushed, htook, hq, he, hp⟩ | ⟨m, hnone, hpushed, htook, hq, he, hp⟩ |
    ⟨item, hnone, htook, hpushed, hq, he, hp⟩
  all_goals
    refine ⟨?_, ?_, ?_⟩ <;> dsimp only
  · rw [he, hp, hq, hfifo]
  · rw [he]
    exact h.entered.congr (update_same hpushed)
  · rw [hp]
    exact h.popped.congr (update_same htook)
  · rw [he, hp, hq, hfifo, List.append_assoc]
  · rw [he]
    refine h.entered.concat hnone ?_ fun t' hne => ?_
    · rw [update_self, hpushed]
    · rw [update_of_ne hne]
  · rw [hp]
    exact h.popped.congr (update_same htook)
  · rw [he, hp, hfifo, hq, List.map_append, List.append_assoc]
    rfl
  · rw [he]
    exact h.entered.congr (update_same hpushed)
  · rw [hp]
    refine h.popped.concat hnone ?_ fun t' hne => ?_
    · rw [update_self, htook]
    · rw [update_of_ne hne]

theorem Inv.stepCall (h : Inv s) (hconn : StillConnected s (.step t)) :
    Inv (step capacity s (.step t)) :=
  h.replace (Call.step_cases fun m hm => hconn t m rfl hm)

theorem Inv.call (h : Inv s) (t : ℕ) (f : Request μ) : Inv (step capacity s (.call t f)) := by
  rw [step]
  cases ht : s.calls t with
  | unused =>
    refine ⟨h.fifo, h.entered.congr (update_same ?_), h.popped.congr (update_same ?_)⟩
    · rw [ht]
      cases f <;> rfl
    · rw [ht]
      cases f <;> rfl
  | _ => exact h

theorem inv_newChannel : Inv (newChannel μ) := ⟨rfl, fun _ => rfl, fun _ => rfl⟩

end Inv

/-- **The channel delivers what was sent, once**, as long as no call that pushed its message finds
the channel disconnected right after. A message is received at most once; messages are received in
the order in which they entered the queue; a send that succeeded has entered its message once; and a
message whose send failed is never received. -/
theorem channel_delivers {μ : Type*} (capacity : ℕ) (ops : List (Op μ))
    (hg : Guarded (step capacity) StillConnected (newChannel μ) ops) (s : System μ)
    (hs : s = run (step capacity) (newChannel μ) ops) :
    (∀ r r' t m m', s.calls r = .received (.ok (t, m)) → s.calls r' = .received (.ok (t, m')) →
      r = r') ∧
    (s.channel.popped.map Prod.snd <+: s.channel.entered ∧
      ∀ r item, s.calls r = .received (.ok item) → (r, item) ∈ s.channel.popped) ∧
    (∀ t m, s.calls t = .sent m (.ok ()) →
      s.channel.entered.filter (fun item => item.1 == t) = [(t, m)]) ∧
    ∀ t m e, s.calls t = .sent m (.error e) → ∀ r m', s.calls r ≠ .received (.ok (t, m')) := by
  have hinv : Inv s := by
    rw [hs]
    refine Guarded.invariant ?_ hg inv_newChannel
    rintro s (⟨t, f⟩ | t) h hconn
    · exact h.call t f
    · exact h.stepCall hconn
  have hpopped : ∀ r item, s.calls r = .received (.ok item) → (r, item) ∈ s.channel.popped :=
    fun r item hr => hinv.popped.mem (by rw [hr]; rfl)
  have hentered : ∀ r item, s.calls r = .received (.ok item) → item ∈ s.channel.entered := by
    intro r item hr
    rw [hinv.fifo]
    exact List.mem_append_left _ (List.mem_map.mpr ⟨_, hpopped r item hr, rfl⟩)
  refine ⟨?_, ⟨⟨_, hinv.fifo.symm⟩, hpopped⟩, ?_, ?_⟩
  · intro r r' t m m' hr hr'
    -- Nothing enters twice, so nothing is popped twice.
    have hnodup : (s.channel.popped.map fun p => p.2.1).Nodup := by
      have := hinv.entered.nodup
      rw [hinv.fifo, List.map_append, List.map_map] at this
      exact this.of_append_left
    have := List.inj_on_of_nodup_map hnodup (hpopped r _ hr) (hpopped r' _ hr') rfl
    exact (Prod.mk.inj this).1
  · intro t m ht
    refine hinv.entered.filter_eq ?_
    rw [ht]
    rfl
  · intro t m e ht r m' hr
    have := hinv.entered.value_of_mem (hentered r _ hr)
    rw [ht] at this
    cases this

theorem stillConnected_of_connected {s : System μ} {op : Op μ}
    (h : s.channel.channelStatus = .connected) : StillConnected s op := fun _ _ _ _ => h

/-- Two messages through a queue of one: the second send finds it full, and its closure runs once in
vain and once after the first message was received. -/
def twoMessages : List (Op ℕ) :=
  [.call 0 (.send 7), .step 0, .step 0, .step 0,
    .call 1 (.send 8), .step 1, .step 1, .step 1, .step 1,
    .call 2 .receive, .step 2, .step 2,
    .step 1, .step 1, .step 1,
    .call 3 .receive, .step 3, .step 3]

theorem channel_delivers_twoMessages :
    (run (step 1) (newChannel ℕ) twoMessages).calls 2 = .received (.ok (0, 7)) ∧
    (run (step 1) (newChannel ℕ) twoMessages).calls 3 = .received (.ok (1, 8)) ∧
    (run (step 1) (newChannel ℕ) twoMessages).channel.entered.filter (fun item => item.1 == 1) =
      [(1, 8)] := by
  have h {s : System ℕ} {op : Op ℕ} (hs : s.channel.channelStatus = .connected) :
      StillConnected s op := stillConnected_of_connected hs
  refine ⟨rfl, rfl, (channel_delivers 1 twoMessages ?_ _ rfl).2.2.1 1 8 rfl⟩
  exact ⟨h rfl, h rfl, h rfl, h rfl, h rfl, h rfl, h rfl, h rfl, h rfl, h rfl, h rfl, h rfl, h rfl,
    h rfl, h rfl, h rfl, h rfl, h rfl, trivial⟩

/-- The third message finds the queue full. A receiver takes the first message and is dropped before
the sender runs its closure, which pushes the message and then reports that the channel is
disconnected. -/
def lateFailure : List (Op ℕ) :=
  [.call 1 (.send 10), .step 1, .step 1, .step 1, .call 2 (.send 20), .step 2, .step 2, .step 2,
    .call 3 (.send 30), .step 3, .step 3,
    .call 4 .receive, .step 4, .step 4, .call 5 .dropReceiver, .step 5, .step 5,
    .step 3, .step 3,
    .call 6 .addReceiver, .step 6, .step 6, .call 7 .receive, .step 7, .step 7,
    .call 8 .receive, .step 8, .step 8]

/-- The send of the third message failed, and a new receiver receives it. -/
theorem failed_message_received :
    (run (step 2) (newChannel ℕ) lateFailure).calls 3 =
      .sent 30 (.error .channelDisconnected) ∧
    (run (step 2) (newChannel ℕ) lateFailure).calls 8 = .received (.ok (3, 30)) := by
  constructor <;> rfl

end Maios.AsyncChannel
