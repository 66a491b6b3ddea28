import Maios.Library.Log
import Maios.Library.Run

/-!
# The rendezvous channel

A sender and a receiver meet at one exchange cell. The channel holds a slot for the sender's side
and one for the receiver's side; a call takes the slot of its side, and waits while it is taken.
Whoever comes first leaves its state in the cell and waits. Whoever comes second finishes first and
returns at once, and the other one puts back both slots.

Every call is a process with a number, which stands for the task that makes the call, and takes one
step at a time: a section under one of the locks. Blocking operations succeed. A waiting call may
wake up at any time.
-/

namespace Maios.Rendezvous

/-- A message with the number of the call that sends it. -/
abbrev Item (μ : Type*) := ℕ × μ

/-- The states of the exchange cell. A `WaitGuard` is the number of the blocked call. -/
inductive ExchangeState (μ : Type*) where
  | init
  | waitingForReceiver (guard : ℕ) (msg : Item μ)
  | waitingForSender (guard : ℕ)
  | receiverFinishedFirst
  | senderFinishedFirst (msg : Item μ)
  deriving DecidableEq

/-- The text of a state in the log. -/
def ExchangeState.debug {μ : Type*} : ExchangeState μ → String
  | init => "ExchangeState::Init"
  | waitingForReceiver .. => "ExchangeState::WaitingForReceiver"
  | waitingForSender _ => "ExchangeState::WaitingForSender"
  | receiverFinishedFirst => "ExchangeState::ReceiverFinishedFirst"
  | senderFinishedFirst _ => "ExchangeState::SenderFinishedFirst"

structure Channel (μ : Type*) where
  /-- The sender's slot is present. -/
  sender : Bool
  /-- The receiver's slot is present. -/
  receiver : Bool
  exchange : ExchangeState μ
  /-- The errors that have been logged. -/
  errors : List String
  /-- All messages that were handed over, in order. -/
  given : List (Item μ)
  /-- All messages that were taken, in order, with the calls that took them. -/
  taken : List (ℕ × Item μ)

variable {μ : Type*}

namespace Channel

def error (c : Channel μ) (msg : String) : Channel μ := { c with errors := c.errors ++ [msg] }

/-- `replace_sender_slot` -/
def replaceSenderSlot (c : Channel μ) : Channel μ :=
  let c' := { c with sender := true }
  if c.sender then c'.error "BUG: REPLACE SENDER SLOT WAS SOME ALREADY" else c'

/-- `replace_receiver_slot` -/
def replaceReceiverSlot (c : Channel μ) : Channel μ :=
  let c' := { c with receiver := true }
  if c.receiver then c'.error "BUG: REPLACE RECEIVER SLOT WAS SOME ALREADY" else c'

end Channel

/-- Where a call is. -/
inductive Call (μ : Type*) where
  | unused
  | takeSender (m : μ)
  /-- `send`: lock the cell for the first time. -/
  | sendFirst (m : μ)
  /-- `send`: drop the guard of the receiver. -/
  | wakeReceiver (m : μ)
  /-- `send`: the loop, after the task was blocked. -/
  | sendWaiting (m : μ)
  /-- `send`: lock the cell at the rendezvous point. -/
  | sendSecond (m : μ)
  | sendRestoreReceiver (m : μ)
  | sendRestoreSender (m : μ) (r : Except String Unit)
  | sent (m : μ) (r : Except String Unit)
  | takeReceiver
  /-- `receive`: lock the cell for the first time. -/
  | receiveFirst
  /-- `receive`: drop the guard of the sender. -/
  | wakeSender (msg : Item μ)
  /-- `receive`: the loop, after the task was blocked. -/
  | receiveWaiting
  /-- `receive`: lock the cell at the rendezvous point. -/
  | receiveSecond
  | receiveRestoreSender (msg : Item μ)
  | receiveRestoreReceiver (r : Except String (Item μ))
  | received (r : Except String (Item μ))
  deriving DecidableEq

namespace Call

/-- The next step of the call `t`. -/
def step (t : ℕ) (call : Call μ) (c : Channel μ) : Call μ × Channel μ :=
  match call with
  | .takeSender m =>
    if c.sender then (.sendFirst m, { c with sender := false }) else (.takeSender m, c)
  | .sendFirst m =>
    match c.exchange with
    | .init => (.sendWaiting m, { c with exchange := .waitingForReceiver t (t, m) })
    | .waitingForSender _ =>
      (.wakeReceiver m,
        { c with exchange := .senderFinishedFirst (t, m), given := c.given ++ [(t, m)] })
    | state =>
      (.sendRestoreSender m (.error "BUG: Sender (at beginning) in invalid state"),
        c.error ("BUG: Sender (at beginning) in invalid state " ++ state.debug))
  | .wakeReceiver m => (.sent m (.ok ()), c)
  | .sendWaiting m =>
    match c.exchange with
    | .waitingForReceiver guard _ =>
      if guard = t then (.sendWaiting m, c)
      else (.sent m (.error "BUG: CURR TASK WAS DIFFERENT THAN BLOCKED SENDER"), c)
    | _ => (.sendSecond m, c)
  | .sendSecond m =>
    match c.exchange with
    | .receiverFinishedFirst => (.sendRestoreReceiver m, { c with exchange := .init })
    | state =>
      (.sendRestoreSender m (.error "BUG: Sender (while waiting) in invalid state"),
        c.error ("BUG: Sender (while waiting) in invalid state " ++ state.debug))
  | .sendRestoreReceiver m => (.sendRestoreSender m (.ok ()), c.replaceReceiverSlot)
  | .sendRestoreSender m r => (.sent m r, c.replaceSenderSlot)
  | .takeReceiver =>
    if c.receiver then (.receiveFirst, { c with receiver := false }) else (.takeReceiver, c)
  | .receiveFirst =>
    match c.exchange with
    | .init => (.receiveWaiting, { c with exchange := .waitingForSender t })
    | .waitingForReceiver _ msg =>
      (.wakeSender msg, { c with
        exchange := .receiverFinishedFirst
        given := c.given ++ [msg]
        taken := c.taken ++ [(t, msg)] })
    | state =>
      (.receiveRestoreReceiver (.error "BUG: Receiver (at beginning) in invalid state"),
        c.error ("BUG: Receiver (at beginning) in invalid state " ++ state.debug))
  | .wakeSender msg => (.received (.ok msg), c)
  | .receiveWaiting =>
    match c.exchange with
    | .waitingForSender guard =>
      if guard = t then (.receiveWaiting, c)
      else (.received (.error "BUG: CURR TASK WAS DIFFERENT THAN BLOCKED RECEIVER"), c)
    | _ => (.receiveSecond, c)
  | .receiveSecond =>
    match c.exchange with
    | .senderFinishedFirst msg =>
      (.receiveRestoreSender msg, { c with exchange := .init, taken := c.taken ++ [(t, msg)] })
    | state =>
      (.receiveRestoreReceiver (.error "BUG: Receiver (at end) in invalid state"),
        c.error ("BUG: Receiver (at end) in invalid state " ++ state.debug))
  | .receiveRestoreSender msg => (.receiveRestoreReceiver (.ok msg), c.replaceSenderSlot)
  | .receiveRestoreReceiver r => (.received r, c.replaceReceiverSlot)
  | .unused => (.unused, c)
  | .sent m r => (.sent m r, c)
  | .received r => (.received r, c)

/-- The call has not begun, or has returned. -/
def isIdle : Call μ → Bool
  | .unused | .sent .. | .received _ => true
  | _ => false

end Call

structure System (μ : Type*) where
  channel : Channel μ
  calls : ℕ → Call μ

/-- A call begins, under a number that has not been used, or takes its next step. -/
inductive Op (μ : Type*) where
  | send (t : ℕ) (m : μ)
  | receive (t : ℕ)
  | step (t : ℕ)

namespace System

/-- A call begins. -/
def begin (s : System μ) (t : ℕ) (call : Call μ) : System μ :=
  match s.calls t with
  | .unused => { s with calls := Function.update s.calls t call }
  | _ => s

end System

def step (s : System μ) : Op μ → System μ
  | .send t m => s.begin t (.takeSender m)
  | .receive t => s.begin t .takeReceiver
  | .step t =>
    let r := (s.calls t).step t s.channel
    ⟨r.2, Function.update s.calls t r.1⟩

/-- `new_channel` -/
def newChannel (μ : Type*) : System μ := ⟨⟨true, true, .init, [], [], []⟩, fun _ => .unused⟩

end Maios.Rendezvous
