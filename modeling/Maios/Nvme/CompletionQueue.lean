import Mathlib.Algebra.Ring.Nat
import Maios.Library.Ring
import Maios.Library.Run

/-!
# NVMe completion queues

`submit_admin` and `submit_io` number a command, put it into the submission queue and poll the
completion queue. The controller posts completions at times of its own choice. An operation of the
system is a submission, the posting of one completion, or one iteration of the poll loop that is
under way; an iteration may be the last one of its loop.

A slot carries, beside what the hardware sees, the submission whose completion it is (`origin`);
nothing the driver does depends on it.

## Main results

* `genuine_iff` — results come from the controller exactly if every poll finds what it has to
-/

namespace Maios.Nvme

open Function List Option

/-- The two pairs of queues of the driver. -/
inductive QueueId
  | admin
  | io
deriving DecidableEq, Repr

/-- The error of a command that the controller reports as failed. -/
def QueueId.failedMessage : QueueId → String
  | admin => "NVMe: admin command failed"
  | io => "NVMe: I/O command failed"

/-- The error of a poll loop that gives up. -/
def QueueId.timeoutMessage : QueueId → String
  | admin => "NVMe: admin CQ poll timeout"
  | io => "NVMe: I/O CQ poll timeout"

/-- The fields of a completion queue entry that the driver reads. -/
structure CompletionEntry where
  dw0 : ℕ
  cid : ℕ
  status : ℕ
deriving DecidableEq, Repr

/-- A slot of the queue, and the submission whose completion the controller wrote into it. -/
structure Slot where
  entry : CompletionEntry
  origin : Option ℕ
deriving DecidableEq, Repr

/-- What `alloc` leaves in a slot: zeroes, and a status whose phase bit is set. -/
def blankSlot : Slot := ⟨⟨0, 0, 1⟩, none⟩

/-- A submitted command: its number in the run, and the identifier it carries. -/
structure Command where
  number : ℕ
  cid : ℕ
deriving DecidableEq, Repr

/-- A completion queue. The driver has `head` and `phase`. The controller has the commands it still
owes a completion, the completions it has posted, of which there are as many as its tail has moved,
and how often it has been told that the head moved. -/
structure Queue where
  entries : ℕ → Slot
  head : ℕ
  phase : ℕ
  outstanding : List Command
  log : List Slot
  consumed : ℕ

namespace Queue

def alloc : Queue := ⟨fun _ => blankSlot, 0, 1, [], [], 0⟩

def cqEntry (q : Queue) : Slot := q.entries q.head

/-- The test of the poll loops: the entry at the head has the phase and the number waited for. -/
def isMatch (q : Queue) (expectedCid : ℕ) : Bool :=
  q.cqEntry.entry.status &&& 1 == q.phase && q.cqEntry.entry.cid == expectedCid

/-- The head moves on, the phase is inverted at the end of a pass, and the doorbell is written. -/
def advance (q : Queue) (depth : ℕ) : Queue :=
  { q with
    head := (q.head + 1) % depth
    phase := if (q.head + 1) % depth = 0 then q.phase ^^^ 1 else q.phase
    consumed := q.consumed + 1 }

/-- The controller posts the completion of the command at position `i` of those it owes, if the head
it was told leaves room. -/
def post (q : Queue) (depth i dw0 statusField : ℕ) : Queue :=
  match q.outstanding[i]? with
  | none => q
  | some cmd =>
    if q.log.length < q.consumed + depth then
      let slot : Slot :=
        ⟨⟨dw0, cmd.cid, 2 * statusField + passPhase depth q.log.length⟩, some cmd.number⟩
      { q with
        entries := Function.update q.entries (q.log.length % depth) slot
        outstanding := q.outstanding.eraseIdx i
        log := q.log ++ [slot] }
    else q

/-- The completion of the submission `number` has been posted. -/
def hasPosted (q : Queue) (number : ℕ) : Bool := q.log.any fun slot => slot.origin == some number

end Queue

/-- What a call returns: the outcome read from an entry, with the origin of that entry, or a
timeout, with whether the call's own completion was there. -/
inductive Result
  | completed (origin : Option ℕ) (outcome : Except String ℕ)
  | timedOut (message : String) (posted : Bool)
deriving DecidableEq, Repr

/-- How the poll loops read the entry they have matched. -/
def commandOutcome (id : QueueId) (entry : CompletionEntry) : Except String ℕ :=
  let sc := (entry.status >>> 1) &&& 0xFF
  let sct := (entry.status >>> 9) &&& 0x7
  if sc ≠ 0 ∨ sct ≠ 0 then .error id.failedMessage else .ok entry.dw0

/-- One iteration of `poll_admin_cq` or `poll_io_cq`: the queue afterwards and, if the loop ends
here, what the call returns. -/
def Queue.poll (q : Queue) (depth : ℕ) (id : QueueId) (cmd : Command) (last : Bool) :
    Queue × Option Result :=
  if q.isMatch cmd.cid then
    (q.advance depth, some (.completed q.cqEntry.origin (commandOutcome id q.cqEntry.entry)))
  else if last then (q, some (.timedOut id.timeoutMessage (q.hasPosted cmd.number)))
  else (q, none)

/-- The driver and the controller. At most one command is polled for at a time, since the calls need
the driver exclusively. -/
structure System where
  queue : QueueId → Queue
  nextCid : ℕ
  submissions : ℕ
  current : Option (QueueId × Command)
  results : List (ℕ × Result)

/-- Freshly allocated queues. -/
def System.init : System := ⟨fun _ => Queue.alloc, 0, 0, none, []⟩

inductive Op
  | submit (id : QueueId)
  | post (id : QueueId) (i dw0 statusField : ℕ)
  | poll (last : Bool)
deriving DecidableEq, Repr

/-- `submit_admin` and `submit_io` up to their poll loop. -/
def System.submit (s : System) (id : QueueId) : System :=
  let cmd : Command := ⟨s.submissions, s.nextCid⟩
  let q := s.queue id
  { s with
    queue := Function.update s.queue id { q with outstanding := q.outstanding ++ [cmd] }
    nextCid := (s.nextCid + 1) % 2 ^ 16
    submissions := s.submissions + 1
    current := some (id, cmd) }

/-- One iteration of the poll loop for `cmd`. -/
def System.poll (s : System) (depth : ℕ) (id : QueueId) (cmd : Command) (last : Bool) : System :=
  let (q, result) := (s.queue id).poll depth id cmd last
  { s with
    queue := Function.update s.queue id q
    current := if result.isSome then none else s.current
    results := s.results ++ (result.map fun r => (cmd.number, r)).toList }

/-- One operation. A submission while another command is polled for, or a poll while none is, cannot
happen and changes nothing. -/
def step (depth : ℕ) (s : System) : Op → System
  | .submit id => if s.current.isSome then s else s.submit id
  | .post id i dw0 statusField =>
    { s with queue := Function.update s.queue id ((s.queue id).post depth i dw0 statusField) }
  | .poll last =>
    match s.current with
    | none => s
    | some (id, cmd) => s.poll depth id cmd last

/-- The result of the submission `number` rests on its own completion, and it is a timeout only if
that completion was not there. -/
def Result.Genuine (number : ℕ) : Result → Prop
  | completed origin _ => origin = some number
  | timedOut _ posted => posted = false

instance (number : ℕ) : (r : Result) → Decidable (r.Genuine number)
  | .completed origin _ => inferInstanceAs (Decidable (origin = some number))
  | .timedOut _ posted => inferInstanceAs (Decidable (posted = false))

/-- All results so far are genuine. -/
def Genuine (s : System) : Prop := ∀ p ∈ s.results, p.2.Genuine p.1

instance (s : System) : Decidable (Genuine s) :=
  inferInstanceAs (Decidable (∀ p ∈ s.results, p.2.Genuine p.1))

/-- What a poll for `cmd` has to find. A command with the number 0 finds a slot that the controller
has written at least once. If the oldest unread completion belongs to another submission, it carries
another number, and the loop does not end with the completion of `cmd` behind it. -/
def Queue.OwnAtHead (q : Queue) (depth : ℕ) (cmd : Command) (last : Bool) : Prop :=
  (cmd.cid = 0 → q.consumed < q.log.length ∨ depth ≤ q.consumed) ∧
    ∀ slot, q.log[q.consumed]? = some slot → slot.origin ≠ some cmd.number →
      slot.entry.cid ≠ cmd.cid ∧ (last = true → q.hasPosted cmd.number = false)

/-- Every poll finds what it has to find. -/
def OwnAtHead (depth : ℕ) (s : System) (op : Op) : Prop :=
  ∀ last id cmd, op = .poll last → s.current = some (id, cmd) →
    (s.queue id).OwnAtHead depth cmd last

/-! ### One queue -/

variable {depth : ℕ} {q : Queue} {cmd : Command} {last : Bool}

namespace Queue

/-- The driver's head and phase are those of the number of completions it has read, of which there
are no more than the controller has posted. -/
structure Ok (depth : ℕ) (q : Queue) : Prop where
  head : q.head = q.consumed % depth
  phase : q.phase = passPhase depth q.consumed
  consumed_le : q.consumed ≤ q.log.length
  room : q.log.length ≤ q.consumed + depth
  holds : RingHolds depth blankSlot q.log q.entries
  phases : ∀ n slot, q.log[n]? = some slot → slot.entry.status &&& 1 = passPhase depth n

theorem ok_alloc (depth : ℕ) : alloc.Ok depth where
  head := (Nat.zero_mod depth).symm
  phase := by simp [alloc, passPhase]
  consumed_le := le_refl 0
  room := Nat.zero_le _
  holds := ⟨fun n a h => by simp [alloc] at h, fun _ _ _ => rfl⟩
  phases := fun n a h => by simp [alloc] at h

/-- **What the driver sees at its head.** It is the oldest unread completion; or, when there is
none, the slot as allocated, with the phase of the first pass, or a completion of the pass
before. -/
theorem Ok.cqEntry_cases (hpos : 0 < depth) (h : q.Ok depth) :
    (∃ slot, q.log[q.consumed]? = some slot ∧ q.cqEntry = slot ∧
        slot.entry.status &&& 1 = q.phase) ∨
      (q.consumed = q.log.length ∧ q.consumed < depth ∧ q.cqEntry = blankSlot ∧ q.phase = 1) ∨
      (q.consumed = q.log.length ∧ depth ≤ q.consumed ∧
        q.cqEntry.entry.status &&& 1 ≠ q.phase) := by
  have hread : q.cqEntry = q.entries (q.consumed % depth) := by rw [cqEntry, h.head]
  rcases lt_or_ge q.consumed q.log.length with hlt | hge
  · left
    have hslot : q.log[q.consumed]? = some q.log[q.consumed] := getElem?_eq_getElem hlt
    refine ⟨_, hslot, ?_, ?_⟩
    · rw [hread, h.holds.written _ _ hslot h.room]
    · rw [h.phases _ _ hslot, h.phase]
  right
  have hall : q.consumed = q.log.length := le_antisymm h.consumed_le hge
  rcases lt_or_ge q.consumed depth with hfirst | hlater
  · refine .inl ⟨hall, hfirst, ?_, ?_⟩
    · rw [hread, Nat.mod_eq_of_lt hfirst, h.holds.blank _ hge hfirst]
    · rw [h.phase, passPhase, Nat.div_eq_of_lt hfirst, if_pos rfl]
  -- The slot was last written one pass ago.
  refine .inr ⟨hall, hlater, ?_⟩
  obtain ⟨n, hn⟩ : ∃ n, q.consumed = n + depth := ⟨q.consumed - depth, by omega⟩
  have hslot : q.log[n]? = some (q.log[n]) := getElem?_eq_getElem (by omega)
  have hmod : q.consumed % depth = n % depth := by rw [hn, Nat.add_mod_right]
  rw [hread, hmod, h.holds.written _ _ hslot (by omega), h.phases _ _ hslot, h.phase, hn]
  exact (passPhase_add_depth hpos n).symm

theorem Ok.advance (h : q.Ok depth) (hlt : q.consumed < q.log.length) :
    (q.advance depth).Ok depth where
  head := by simp only [Queue.advance, h.head, Nat.mod_add_mod]
  phase := by simp only [Queue.advance, h.head, h.phase, Nat.mod_add_mod, passPhase_succ]
  consumed_le := hlt
  room := by
    have := h.room
    simp only [Queue.advance]
    omega
  holds := h.holds
  phases := h.phases

/-- What posting a completion does. -/
theorem post_cases (q : Queue) (depth i dw0 statusField : ℕ) :
    q.post depth i dw0 statusField = q ∨
      ∃ cmd slot, cmd ∈ q.outstanding ∧ q.log.length < q.consumed + depth ∧
        slot.entry.cid = cmd.cid ∧ slot.origin = some cmd.number ∧
        slot.entry.status &&& 1 = passPhase depth q.log.length ∧
        q.post depth i dw0 statusField =
          { q with
            entries := update q.entries (q.log.length % depth) slot
            outstanding := q.outstanding.eraseIdx i
            log := q.log ++ [slot] } := by
  rw [post]
  cases hcmd : q.outstanding[i]? with
  | none => exact .inl rfl
  | some cmd => ?_
  split_ifs with hroom
  · refine .inr ⟨cmd, _, mem_of_getElem? hcmd, hroom, rfl, rfl, ?_, rfl⟩
    rw [Nat.and_one_is_mod, Nat.mul_add_mod, passPhase]
    split <;> rfl
  · exact .inl rfl

theorem Ok.post (h : q.Ok depth) (i dw0 statusField : ℕ) :
    (q.post depth i dw0 statusField).Ok depth := by
  rcases q.post_cases depth i dw0 statusField with heq | ⟨cmd, slot, _, hroom, _, _, hphase, heq⟩
  · rwa [heq]
  rw [heq]
  have hlen : (q.log ++ [slot]).length = q.log.length + 1 := by simp
  refine ⟨h.head, h.phase, ?_, ?_, h.holds.write slot, fun n slot' hn => ?_⟩
  · exact hlen ▸ Nat.le_succ_of_le h.consumed_le
  · exact hlen ▸ hroom
  · dsimp only at hn
    rcases lt_trichotomy n q.log.length with hlt | rfl | hgt
    · rw [getElem?_append_left hlt] at hn
      exact h.phases n slot' hn
    · rw [getElem?_concat_length] at hn
      rw [← some.inj hn, hphase]
    · rw [getElem?_eq_none (by omega)] at hn
      cases hn

/-- All submissions the controller knows of were made before the submission `bound`. -/
structure Fresh (q : Queue) (bound : ℕ) : Prop where
  outstanding : ∀ c ∈ q.outstanding, c.number < bound
  log : ∀ slot ∈ q.log, ∀ n, slot.origin = some n → n < bound

/-- The command `cmd` is polled for: what the controller owes or has posted for it carries its
number, and none of that has been read. -/
structure Awaits (q : Queue) (cmd : Command) : Prop where
  outstanding : ∀ c ∈ q.outstanding, c.number = cmd.number → c.cid = cmd.cid
  log : ∀ slot ∈ q.log, slot.origin = some cmd.number → slot.entry.cid = cmd.cid
  unread : ∀ n slot, q.log[n]? = some slot → slot.origin = some cmd.number → q.consumed ≤ n

theorem Fresh.post {bound : ℕ} (h : q.Fresh bound) (i dw0 statusField : ℕ) :
    (q.post depth i dw0 statusField).Fresh bound := by
  rcases q.post_cases depth i dw0 statusField with heq | ⟨cmd, slot, hcmd, _, _, horigin, _, heq⟩
  · rwa [heq]
  rw [heq]
  refine ⟨fun c hc => h.outstanding c (mem_of_mem_eraseIdx hc), fun slot' hmem n hn => ?_⟩
  rcases mem_append.mp hmem with hold | hnew
  · exact h.log slot' hold n hn
  · rw [mem_singleton.mp hnew, horigin, some.injEq] at hn
    exact hn ▸ h.outstanding cmd hcmd

theorem Awaits.post (hok : q.Ok depth) (h : q.Awaits cmd) (i dw0 statusField : ℕ) :
    (q.post depth i dw0 statusField).Awaits cmd := by
  rcases q.post_cases depth i dw0 statusField with
    heq | ⟨cmd', slot, hcmd, _, hcid, horigin, _, heq⟩
  · rwa [heq]
  rw [heq]
  refine ⟨fun c hc => h.outstanding c (mem_of_mem_eraseIdx hc), fun slot' hmem ho => ?_,
    fun n slot' hn ho => ?_⟩
  · rcases mem_append.mp hmem with hold | hnew
    · exact h.log slot' hold ho
    · rw [mem_singleton.mp hnew, horigin, some.injEq] at ho
      rw [mem_singleton.mp hnew, hcid]
      exact h.outstanding cmd' hcmd ho
  · dsimp only at hn ⊢
    rcases lt_or_ge n q.log.length with hlt | hge
    · rw [getElem?_append_left hlt] at hn
      exact h.unread n slot' hn ho
    · exact le_trans hok.consumed_le hge

/-- With nothing left to read, the completion of the command polled for has not been posted. -/
theorem Awaits.not_hasPosted (h : q.Awaits cmd) (hall : q.consumed = q.log.length) :
    q.hasPosted cmd.number = false := by
  rw [hasPosted, List.any_eq_false]
  intro slot hmem horigin
  obtain ⟨n, hn, hslot⟩ := getElem_of_mem hmem
  have hle : q.consumed ≤ n :=
    h.unread n slot (by rw [getElem?_eq_getElem hn, hslot]) (beq_iff_eq.mp horigin)
  omega

theorem isMatch_iff (q : Queue) (cid : ℕ) :
    q.isMatch cid = true ↔
      q.cqEntry.entry.status &&& 1 = q.phase ∧ q.cqEntry.entry.cid = cid := by
  simp [isMatch]

theorem poll_of_match (hm : q.isMatch cmd.cid = true) (id : QueueId) (last : Bool) :
    q.poll depth id cmd last =
      (q.advance depth, some (.completed q.cqEntry.origin (commandOutcome id q.cqEntry.entry))) :=
  if_pos hm

/-- A loop that finds nothing ends genuinely if it does not give up on its own completion. -/
theorem poll_of_not_match (hm : ¬ q.isMatch cmd.cid = true) (id : QueueId)
    (hposted : last = true → q.hasPosted cmd.number = false) :
    (∃ r : Result, r.Genuine cmd.number ∧ q.poll depth id cmd last = (q, some r)) ∨
      q.poll depth id cmd last = (q, none) := by
  rw [poll, if_neg hm]
  cases last with
  | true => exact .inl ⟨.timedOut id.timeoutMessage _, hposted rfl, rfl⟩
  | false => exact .inr rfl

/-- **One iteration of a poll loop that finds what it has to find** reads the call's own completion,
gives up without that completion having been posted, or goes on. -/
theorem poll_of_ownAtHead (hpos : 0 < depth) (hok : q.Ok depth) (h : q.Awaits cmd) (id : QueueId)
    (hown : q.OwnAtHead depth cmd last) :
    (q.consumed < q.log.length ∧ ∃ r : Result, r.Genuine cmd.number ∧
        q.poll depth id cmd last = (q.advance depth, some r)) ∨
      (∃ r : Result, r.Genuine cmd.number ∧ q.poll depth id cmd last = (q, some r)) ∨
      q.poll depth id cmd last = (q, none) := by
  rcases hok.cqEntry_cases hpos with
    ⟨slot, hslot, hentry, hphase⟩ | ⟨hall, hfirst, hentry, hphase⟩ | ⟨hall, _, hphase⟩
  · by_cases horigin : slot.origin = some cmd.number
    · have hcid : slot.entry.cid = cmd.cid := h.log slot (mem_of_getElem? hslot) horigin
      have hm : q.isMatch cmd.cid = true := (q.isMatch_iff _).mpr (hentry ▸ ⟨hphase, hcid⟩)
      obtain ⟨hlt, _⟩ := List.getElem?_eq_some_iff.mp hslot
      exact .inl ⟨hlt, _, hentry ▸ horigin, poll_of_match hm id last⟩
    · obtain ⟨hcid, hposted⟩ := hown.2 slot hslot horigin
      refine .inr (poll_of_not_match (fun hm => hcid ?_) id hposted)
      exact hentry ▸ ((q.isMatch_iff _).mp hm).2
  · refine .inr (poll_of_not_match (fun hm => ?_) id fun _ => h.not_hasPosted hall)
    have hzero : q.cqEntry.entry.cid = cmd.cid := ((q.isMatch_iff _).mp hm).2
    rw [hentry] at hzero
    have := hown.1 hzero.symm
    omega
  · refine .inr (poll_of_not_match (fun hm => hphase ?_) id fun _ => h.not_hasPosted hall)
    exact ((q.isMatch_iff _).mp hm).1

/-- An iteration that does not find what it has to find ends the call with a result that is not
genuine. -/
theorem poll_of_not_ownAtHead (hpos : 0 < depth) (hok : q.Ok depth) (id : QueueId)
    (hown : ¬ q.OwnAtHead depth cmd last) :
    ∃ r : Result, ¬ r.Genuine cmd.number ∧ (q.poll depth id cmd last).2 = some r := by
  rcases hok.cqEntry_cases hpos with
    ⟨slot, hslot, hentry, hphase⟩ | ⟨hall, hfirst, hentry, hphase⟩ | ⟨hall, hlater, _⟩
  · have hlt : q.consumed < q.log.length := (List.getElem?_eq_some_iff.mp hslot).1
    have hforeign : slot.origin ≠ some cmd.number ∧
        ¬ (slot.entry.cid ≠ cmd.cid ∧ (last = true → q.hasPosted cmd.number = false)) := by
      by_contra hnot
      refine hown ⟨fun _ => Or.inl hlt, fun slot' hslot' horigin => ?_⟩
      obtain rfl : slot = slot' := some.inj (hslot.symm.trans hslot')
      by_contra hbad
      exact hnot ⟨horigin, hbad⟩
    obtain ⟨horigin, hbad⟩ := hforeign
    by_cases hcid : slot.entry.cid = cmd.cid
    · -- The completion of another submission with the same number.
      have hm : q.isMatch cmd.cid = true := (q.isMatch_iff _).mpr (hentry ▸ ⟨hphase, hcid⟩)
      exact ⟨_, hentry ▸ horigin, congrArg Prod.snd (poll_of_match hm id last)⟩
    -- The loop gives up with its own completion behind another one.
    have hm : ¬ q.isMatch cmd.cid = true := fun hm =>
      hcid (hentry ▸ ((q.isMatch_iff _).mp hm).2)
    obtain ⟨rfl, hposted⟩ : last = true ∧ q.hasPosted cmd.number = true := by
      simpa [hcid] using hbad
    refine ⟨.timedOut id.timeoutMessage (q.hasPosted cmd.number), ?_, ?_⟩
    · simp [Result.Genuine, hposted]
    · rw [poll, if_neg hm, if_pos rfl]
  · -- Nothing has been posted, but the slot as allocated passes for a completion of number 0.
    have hnone : q.log[q.consumed]? = none := getElem?_eq_none (Nat.le_of_eq hall.symm)
    have hcid : cmd.cid = 0 := by
      by_contra hne
      exact hown ⟨fun h0 => absurd h0 hne, fun slot hslot => by simp [hnone] at hslot⟩
    have hm : q.isMatch cmd.cid = true := by
      rw [isMatch_iff, hentry, hphase, hcid]
      exact ⟨rfl, rfl⟩
    refine ⟨_, ?_, congrArg Prod.snd (poll_of_match hm id last)⟩
    simp [Result.Genuine, hentry, blankSlot]
  · refine absurd ⟨fun _ => .inr hlater, fun slot hslot => ?_⟩ hown
    rw [getElem?_eq_none (le_of_eq hall.symm)] at hslot
    cases hslot

end Queue

/-! ### The system -/

/-- The invariant of a run whose results are genuine. -/
structure Inv (depth : ℕ) (s : System) : Prop where
  ok : ∀ id, (s.queue id).Ok depth
  fresh : ∀ id, (s.queue id).Fresh s.submissions
  awaits : ∀ id cmd, s.current = some (id, cmd) → (s.queue id).Awaits cmd
  genuine : Genuine s

theorem inv_init (depth : ℕ) : Inv depth System.init where
  ok := fun _ => Queue.ok_alloc depth
  fresh := fun _ => ⟨forall_mem_nil _, forall_mem_nil _⟩
  awaits := fun _ _ h => by cases h
  genuine := forall_mem_nil _

variable {s : System} {id : QueueId}

/-- A property of all queues survives the replacement of one of them. -/
theorem forall_update (P : Queue → Prop) (h : ∀ id, P (s.queue id)) (hq : P q) (id' : QueueId) :
    P (update s.queue id q id') := by
  by_cases heq : id' = id
  · rwa [heq, update_self]
  · rw [update_of_ne heq]
    exact h id'

theorem inv_submit (h : Inv depth s) (id : QueueId) : Inv depth (s.submit id) := by
  have hok := h.ok id
  refine ⟨forall_update (Queue.Ok depth) h.ok ?_, ?_, fun id' cmd hcur => ?_, h.genuine⟩
  · exact ⟨hok.head, hok.phase, hok.consumed_le, hok.room, hok.holds, hok.phases⟩
  · have hmono : ∀ id', (s.queue id').Fresh (s.submissions + 1) := fun id' =>
      ⟨fun c hc => Nat.lt_succ_of_lt ((h.fresh id').outstanding c hc),
        fun slot hs n hn => Nat.lt_succ_of_lt ((h.fresh id').log slot hs n hn)⟩
    refine forall_update (Queue.Fresh · (s.submissions + 1)) hmono ⟨fun c hc => ?_, (hmono id).log⟩
    rcases mem_append.mp hc with hold | hnew
    · exact (hmono id).outstanding c hold
    · rw [mem_singleton.mp hnew]
      exact Nat.lt_succ_self _
  · -- The number of the new submission has not been used before.
    obtain ⟨rfl, rfl⟩ : id = id' ∧ (⟨s.submissions, s.nextCid⟩ : Command) = cmd := by
      simpa [System.submit] using hcur
    have hlog : ∀ slot ∈ (s.queue id).log, slot.origin ≠ some s.submissions := fun slot hs ho =>
      Nat.lt_irrefl _ ((h.fresh id).log slot hs _ ho)
    simp only [System.submit, update_self]
    refine ⟨fun c hc hn => ?_, fun slot hs ho => absurd ho (hlog slot hs),
      fun n slot hn ho => absurd ho (hlog slot (mem_of_getElem? hn))⟩
    rcases mem_append.mp hc with hold | hnew
    · exact absurd hn (ne_of_lt ((h.fresh id).outstanding c hold))
    · rw [mem_singleton.mp hnew]

theorem inv_post (h : Inv depth s) (id : QueueId) (i dw0 statusField : ℕ) :
    Inv depth (step depth s (.post id i dw0 statusField)) := by
  refine ⟨forall_update (Queue.Ok depth) h.ok ((h.ok id).post i dw0 statusField),
    forall_update (Queue.Fresh · s.submissions) h.fresh ((h.fresh id).post i dw0 statusField),
    fun id' cmd hcur => ?_, h.genuine⟩
  have hawaits := h.awaits id' cmd hcur
  simp only [step]
  obtain rfl | heq := eq_or_ne id' id
  · rw [update_self]
    exact hawaits.post (h.ok id') i dw0 statusField
  · rwa [update_of_ne heq]

/-- The state after an iteration of a poll loop, by what the iteration returns. -/
theorem genuine_poll_iff (s : System) (depth : ℕ) (id : QueueId) (cmd : Command) (last : Bool) :
    Genuine (s.poll depth id cmd last) ↔
      Genuine s ∧ ∀ r, ((s.queue id).poll depth id cmd last).2 = some r → r.Genuine cmd.number := by
  simp only [Genuine, System.poll, mem_append, mem_toList, map_eq_some_iff]
  constructor
  · intro h
    exact ⟨fun p hp => h p (.inl hp), fun r hr => h (cmd.number, r) (.inr ⟨r, hr, rfl⟩)⟩
  · rintro ⟨hold, hnew⟩ p (hp | ⟨r, hr, rfl⟩)
    · exact hold p hp
    · exact hnew r hr

theorem inv_poll (hpos : 0 < depth) (h : Inv depth s) (hcur : s.current = some (id, cmd))
    (hown : (s.queue id).OwnAtHead depth cmd last) : Inv depth (s.poll depth id cmd last) := by
  have hgenuine : Genuine (s.poll depth id cmd last) := by
    refine (genuine_poll_iff s depth id cmd last).mpr ⟨h.genuine, fun r hr => ?_⟩
    rcases Queue.poll_of_ownAtHead hpos (h.ok id) (h.awaits id cmd hcur) id hown with
      ⟨_, r', hr', heq⟩ | ⟨r', hr', heq⟩ | heq
    all_goals rw [heq] at hr; cases hr <;> exact hr'
  rcases Queue.poll_of_ownAtHead hpos (h.ok id) (h.awaits id cmd hcur) id hown with
    ⟨hlt, r, _, heq⟩ | ⟨r, _, heq⟩ | heq
  · refine ⟨?_, ?_, ?_, hgenuine⟩ <;> simp only [System.poll, heq]
    · exact forall_update (Queue.Ok depth) h.ok ((h.ok id).advance hlt)
    · exact forall_update (Queue.Fresh · s.submissions) h.fresh
        ⟨(h.fresh id).outstanding, (h.fresh id).log⟩
    · exact fun _ _ => nofun
  all_goals
    refine ⟨?_, ?_, ?_, hgenuine⟩ <;> simp only [System.poll, heq, update_eq_self]
    · exact h.ok
    · exact h.fresh
  · exact fun _ _ => nofun
  · exact h.awaits

/-- One step meeting the condition keeps the invariant. -/
theorem inv_step (hpos : 0 < depth) (s : System) (op : Op) (h : Inv depth s)
    (hown : OwnAtHead depth s op) : Inv depth (step depth s op) := by
  cases op with rw [step]
  | submit id =>
    split
    · exact h
    · exact inv_submit h id
  | post id i dw0 statusField => exact inv_post h id i dw0 statusField
  | poll last =>
    cases hcur : s.current with
    | none => exact h
    | some p => exact inv_poll hpos h hcur (hown last p.1 p.2 rfl hcur)

/-- What has been returned stays returned. -/
theorem genuine_of_step (s : System) (op : Op) (h : Genuine (step depth s op)) : Genuine s := by
  cases op with rw [step] at h
  | submit id =>
    split at h
    · exact h
    · exact h
  | post id i dw0 statusField => exact h
  | poll last =>
    cases hcur : s.current with
    | none => rwa [hcur] at h
    | some p =>
      rw [hcur] at h
      exact ((genuine_poll_iff s depth p.1 p.2 last).mp h).1

/-- A step from a good state gives only genuine results exactly if it meets the condition. -/
theorem genuine_step_iff (hpos : 0 < depth) (s : System) (op : Op) (h : Inv depth s) :
    Genuine (step depth s op) ↔ OwnAtHead depth s op := by
  refine ⟨fun hgen last id cmd hop hcur => ?_, fun hown => (inv_step hpos s op h hown).genuine⟩
  by_contra hnot
  obtain ⟨r, hr, heq⟩ := Queue.poll_of_not_ownAtHead hpos (h.ok id) id hnot
  rw [hop, step, hcur] at hgen
  exact hr (((genuine_poll_iff s depth id cmd last).mp hgen).2 r heq)

/-- **Results come from the controller** exactly when every iteration of a poll loop finds what it
has to find: the slot at the head of a command numbered 0 has been written by the controller, and no
completion of another submission waits at the head with the same number, or while the loop gives up
on a completion posted behind it. -/
theorem genuine_iff (depth : ℕ) (hpos : 0 < depth) (ops : List Op) :
    Genuine (run (step depth) System.init ops) ↔
      Guarded (step depth) (OwnAtHead depth) System.init ops :=
  run_iff_guarded (fun _ h => h.genuine) (genuine_step_iff hpos) (inv_step hpos) genuine_of_step
    (inv_init depth) ops

/-- A run whose single poll comes after the controller has posted the completion. -/
theorem genuine_iff_posted :
    0 < 64 ∧
      (Genuine (run (step 64) System.init [.submit .admin, .post .admin 0 7 0, .poll false]) ↔
        Guarded (step 64) (OwnAtHead 64) System.init
          [.submit .admin, .post .admin 0 7 0, .poll false]) :=
  ⟨by decide, genuine_iff 64 (by decide) _⟩

/-- The first command returns success before the controller has done anything. -/
def unpostedRun : List Op := [.submit .admin, .poll false]

/-- An I/O command times out and is completed late; the next one is completed in time. -/
def lateCompletionRun : List Op :=
  [.submit .admin, .post .admin 0 0 0, .poll false, .submit .io, .poll true, .post .io 0 0 0,
    .submit .io, .post .io 0 0 0, .poll true]

/-- The slots as allocated pass for the completion of the first command, and the late completion of
a timed-out command stays at the head, so that the next command times out with its own completion
posted. -/
theorem results_not_genuine :
    ((run (step 64) System.init unpostedRun).results = [(0, .completed none (.ok 0))] ∧
        ¬ Genuine (run (step 64) System.init unpostedRun)) ∧
      (run (step 64) System.init lateCompletionRun).results =
          [(0, .completed (some 0) (.ok 0)), (1, .timedOut "NVMe: I/O CQ poll timeout" false),
            (2, .timedOut "NVMe: I/O CQ poll timeout" true)] ∧
        ¬ Genuine (run (step 64) System.init lateCompletionRun) := by
  decide +kernel

end Maios.Nvme
