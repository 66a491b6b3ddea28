import Maios.Sync.Handshake

/-!
# What the rendezvous channel delivers

The invariant of the handshake says who owns the sides of the exchange cell, and that the messages
handed over are the messages taken, with at most one in the cell. From this follows what the
channel is for: every message goes from one send to one receive, and when nobody is in the channel
it is as it was at the start.

## Main results

* `rendezvous_correct`, `received_as_sent`
-/

namespace Maios.Rendezvous

open Function List

variable {μ : Type*}

/-- The message that the call sends. -/
def Call.message : Call μ → Option μ
  | .takeSender m | .sendFirst m | .wakeReceiver m | .sendWaiting m | .sendSecond m
  | .sendRestoreReceiver m | .sendRestoreSender m _ | .sent m _ => some m
  | _ => none

theorem Call.message_step (t : ℕ) (call : Call μ) (c : Channel μ) :
    (call.step t c).1.message = call.message := by
  cases call with
  | takeSender m => rw [step]; split_ifs <;> rfl
  | sendFirst m => rw [step]; cases c.exchange <;> rfl
  | sendWaiting m =>
    rw [step]
    cases c.exchange with
    | waitingForReceiver guard msg => dsimp only; split_ifs <;> rfl
    | _ => rfl
  | sendSecond m => rw [step]; cases c.exchange <;> rfl
  | takeReceiver => rw [step]; split_ifs <;> rfl
  | receiveFirst => rw [step]; cases c.exchange <;> rfl
  | receiveWaiting =>
    rw [step]
    cases c.exchange with
    | waitingForSender guard => dsimp only; split_ifs <;> rfl
    | _ => rfl
  | receiveSecond => rw [step]; cases c.exchange <;> rfl
  | _ => rfl

variable {call : Call μ} {t : ℕ} {m m' : μ} {ex : ExchangeState μ}

theorem message_begin {s : System μ} {t' : ℕ} (h : (s.calls t).message = some m) :
    ((s.begin t' call).calls t).message = some m := by
  rw [System.begin]
  cases ht' : s.calls t' with
  | unused =>
    have hne : t ≠ t' := by
      rintro rfl
      rw [ht'] at h
      cases h
    exact (congrArg Call.message (update_of_ne hne _ _)).trans h
  | _ => exact h

/-- A call sends the message it was called with, to the end of a run. -/
theorem message_run {s : System μ} (h : (s.calls t).message = some m) (ops : List (Op μ)) :
    ((run step s ops).calls t).message = some m := by
  refine run_invariant (I := fun s : System μ => (s.calls t).message = some m) ?_ h ops
  rintro s (⟨t', m'⟩ | t' | t') h
  · exact message_begin h
  · exact message_begin h
  · show (update s.calls t' _ t).message = some m
    rcases eq_or_ne t t' with rfl | hne
    · rw [update_self, Call.message_step, h]
    · rw [update_of_ne hne, h]

/-! ### A call that has a message returns it -/

/-- The call returns this value as soon as it has taken its own next steps. -/
def Returns (s : System μ) (t : ℕ) (call : Call μ) : Prop :=
  ∃ n, (run step s (List.replicate n (.step t))).calls t = call

/-- The call has taken the message, or is the one that the message in the cell is for. -/
def Bound (s : System μ) (r : ℕ) (msg : Item μ) : Prop :=
  (s.calls r).taken = some msg ∨ s.channel.exchange = .senderFinishedFirst msg ∧
    (s.calls r = .receiveWaiting ∨ s.calls r = .receiveSecond)

section Returns

variable {s : System μ} {t : ℕ} {call : Call μ}

theorem Returns.now (h : s.calls t = call) : Returns s t call := ⟨0, h⟩

theorem Returns.next (h : Returns (step s (.step t)) t call) : Returns s t call := by
  obtain ⟨n, h⟩ := h
  exact ⟨n + 1, h⟩

/-- Where a call is after its next step. -/
theorem calls_step {call' : Call μ} (hcall : s.calls t = call)
    (hnext : (call.step t s.channel).1 = call') : (step s (.step t)).calls t = call' := by
  show update s.calls t ((s.calls t).step t s.channel).1 t = call'
  rw [update_self, hcall, hnext]

theorem exchange_step (hcall : s.calls t = call) (hnext : (call.step t s.channel).2.exchange = ex) :
    (step s (.step t)).channel.exchange = ex := by
  show ((s.calls t).step t s.channel).2.exchange = ex
  rw [hcall, hnext]

variable {r : ℕ} {msg : Item μ}

theorem returns_of_taken (h : (s.calls r).taken = some msg) :
    Returns s r (.received (.ok msg)) := by
  have hlast : ∀ {s : System μ} {x}, s.calls r = .receiveRestoreReceiver (.ok x) →
      Returns s r (.received (.ok x)) := fun hcall => .next (.now (calls_step hcall rfl))
  cases hcall : s.calls r with rw [hcall] at h
  | wakeSender x =>
    cases h
    exact .next (.now (calls_step hcall rfl))
  | receiveRestoreSender x =>
    cases h
    exact .next (hlast (calls_step hcall rfl))
  | receiveRestoreReceiver x =>
    cases x with cases h
    | ok x =>
      exact hlast hcall
  | received x =>
    cases x with cases h
    | ok x =>
      exact .now hcall
  | _ =>
    cases h

/-- **The call to which a message is bound returns it.** -/
theorem bound_returns (h : Bound s r msg) : Returns s r (.received (.ok msg)) := by
  rcases h with h | ⟨hex, h⟩
  · exact returns_of_taken h
  have hsecond : ∀ {s : System μ}, s.calls r = .receiveSecond →
      s.channel.exchange = .senderFinishedFirst msg → Returns s r (.received (.ok msg)) := by
    intro s hcall hex
    refine .next (returns_of_taken ?_)
    rw [calls_step hcall (by rw [Call.step, hex])]
    rfl
  rcases h with hcall | hcall
  · refine .next (hsecond (calls_step hcall ?_) (exchange_step hcall ?_)) <;>
      rw [Call.step, hex]
    exact hex
  · exact hsecond hcall hex

/-- **A send that has handed over its message returns.** -/
theorem given_returns (hfits : (s.calls t).Fits s.channel.exchange t)
    (h : (s.calls t).given s.channel.exchange = some m) : Returns s t (.sent m (.ok ())) := by
  have hlast : ∀ {s : System μ}, s.calls t = .sendRestoreSender m (.ok ()) →
      Returns s t (.sent m (.ok ())) := fun hcall => .next (.now (calls_step hcall rfl))
  have hsecond : ∀ {s : System μ}, s.calls t = .sendSecond m →
      s.channel.exchange = .receiverFinishedFirst → Returns s t (.sent m (.ok ())) := by
    intro s hcall hex
    have hnext : (step s (.step t)).calls t = .sendRestoreReceiver m :=
      calls_step hcall (by rw [Call.step, hex])
    exact .next (.next (hlast (calls_step hnext rfl)))
  cases hcall : s.calls t with rw [hcall] at h hfits
  | wakeReceiver x =>
    cases h
    exact .next (.now (calls_step hcall rfl))
  | sendWaiting x =>
    rcases hfits with hex | hex <;> rw [hex] at h <;> cases h
    refine .next (hsecond (calls_step hcall ?_) (exchange_step hcall ?_)) <;>
      rw [Call.step, hex]
    exact hex
  | sendSecond x =>
    cases h
    exact hsecond hcall hfits
  | sendRestoreReceiver x =>
    cases h
    exact .next (hlast (calls_step hcall rfl))
  | sendRestoreSender x r =>
    cases r <;> cases h
    exact hlast hcall
  | sent x r =>
    cases r <;> cases h
    exact .now hcall
  | _ => cases h

end Returns

/-! ### The channel -/

theorem holdsSender_of_isIdle (h : call.isIdle = true) (ex : ExchangeState μ) :
    call.holdsSender ex = false := by
  cases call with
  | unused | sent | received => rfl
  | _ => cases h

theorem holdsReceiver_of_isIdle (h : call.isIdle = true) (ex : ExchangeState μ) :
    call.holdsReceiver ex = false := by
  cases call with
  | unused | sent | received => rfl
  | _ => cases h

/-- A call hands over the message that it sends. -/
theorem message_of_given (h : call.given ex = some m) : call.message = some m := by
  cases call with
  | wakeReceiver | sendSecond | sendRestoreReceiver => exact h
  | sendWaiting x =>
    cases ex with
    | receiverFinishedFirst => exact h
    | _ => cases h
  | sendRestoreSender x r | sent x r =>
    cases r with
    | error e => cases h
    | ok u => exact h
  | _ => cases h

/-- What holds in every state of the channel. -/
structure Correct (s : System μ) : Prop where
  /-- No branch for an invalid state was taken, and no slot was replaced while it was present. -/
  errors : s.channel.errors = []
  sent_ok : ∀ t m e, s.calls t ≠ .sent m (.error e)
  received_ok : ∀ t e, s.calls t ≠ .received (.error e)
  /-- The message of a send that returned is bound to one receive, -/
  sent : ∀ t m, s.calls t = .sent m (.ok ()) → ∃! r, Bound s r (t, m)
  /-- which returns it. -/
  bound : ∀ r msg, Bound s r msg → Returns s r (.received (.ok msg))
  /-- A receive that returned has the message of a send, which also returns, -/
  received : ∀ r t m, s.calls r = .received (.ok (t, m)) → (s.calls t).message = some m ∧
    Returns s t (.sent m (.ok ()))
  /-- and no other receive has it. -/
  received_once : ∀ r r' t m m', s.calls r = .received (.ok (t, m)) →
    s.calls r' = .received (.ok (t, m')) → r = r'
  /-- While nobody is in the channel, it is as it was at the start. -/
  quiescent : (∀ t, (s.calls t).isIdle = true) →
    s.channel.sender = true ∧ s.channel.receiver = true ∧ s.channel.exchange = .init

section Correct

variable {so ro : Option ℕ} {s : System μ} (h : Inv so ro s)

include h

variable {r r' : ℕ}

/-- Nobody takes the message of one send twice. -/
theorem Inv.taken_unique (hr : (s.calls r).taken = some (t, m))
    (hr' : (s.calls r').taken = some (t, m')) : r = r' := by
  have hnodup : (s.channel.taken.map fun p => p.2.1).Nodup := by
    have := h.given.nodup
    rw [h.flow, map_append, map_map] at this
    exact this.of_append_left
  have := inj_on_of_nodup_map hnodup (h.taken.mem hr) (h.taken.mem hr') rfl
  exact (Prod.mk.inj this).1

/-- Nobody has taken the message that lies in the cell. -/
theorem Inv.taken_ne (hex : s.channel.exchange = .senderFinishedFirst (t, m))
    (hr : (s.calls r).taken = some (t, m')) : False := by
  have hnodup := h.given.nodup
  rw [h.flow, hex, map_append, map_map] at hnodup
  have hmem : t ∈ s.channel.taken.map (Prod.fst ∘ Prod.snd) :=
    mem_map.mpr ⟨_, h.taken.mem hr, rfl⟩
  exact (disjoint_of_nodup_append hnodup) hmem (mem_singleton.mpr rfl)

/-- One receive waits at most. -/
theorem Inv.waiting_unique (hr : s.calls r = .receiveWaiting ∨ s.calls r = .receiveSecond)
    (hr' : s.calls r' = .receiveWaiting ∨ s.calls r' = .receiveSecond) : r = r' := by
  have howns : ∀ {x}, s.calls x = .receiveWaiting ∨ s.calls x = .receiveSecond → ro = some x := by
    rintro x (hx | hx) <;> exact (h.calls x).receiver.mpr (by rw [hx]; rfl)
  exact Option.some.inj ((howns hr).symm.trans (howns hr'))

theorem Inv.bound_unique (hr : Bound s r (t, m)) (hr' : Bound s r' (t, m)) : r = r' := by
  rcases hr with hr | ⟨hex, hr⟩
  · rcases hr' with hr' | ⟨hex, -⟩
    · exact h.taken_unique hr hr'
    · exact (h.taken_ne hex hr).elim
  · rcases hr' with hr' | ⟨-, hr'⟩
    · exact (h.taken_ne hex hr').elim
    · exact h.waiting_unique hr hr'

/-- A message that was handed over is bound to a call. -/
theorem Inv.exists_bound (hgiven : (s.calls t).given s.channel.exchange = some m) :
    ∃ r, Bound s r (t, m) := by
  have hmem : (t, m) ∈ s.channel.given := h.given.mem hgiven
  rw [h.flow] at hmem
  rcases mem_append.mp hmem with hmem | hmem
  · obtain ⟨⟨r, msg⟩, hr, rfl⟩ := mem_map.mp hmem
    exact ⟨r, .inl (h.taken.value_of_mem hr)⟩
  have hcell := h.cell
  cases hex : s.channel.exchange with
  | senderFinishedFirst msg =>
    rw [hex] at hmem hcell
    obtain rfl : (t, m) = msg := mem_singleton.mp hmem
    obtain ⟨r, hr⟩ := hcell
    exact ⟨r, .inr ⟨hex, hr⟩⟩
  | _ =>
    rw [hex] at hmem
    cases hmem

/-- A message that was taken was handed over by its send. -/
theorem Inv.given_of_taken (hr : (s.calls r).taken = some (t, m)) :
    (s.calls t).given s.channel.exchange = some m := by
  refine h.given.value_of_mem ?_
  rw [h.flow]
  exact mem_append_left _ (mem_map.mpr ⟨_, h.taken.mem hr, rfl⟩)

/-- While nobody is in the channel, nobody owns a side. -/
theorem Inv.quiescent (hidle : ∀ t, (s.calls t).isIdle = true) :
    s.channel.sender = true ∧ s.channel.receiver = true ∧ s.channel.exchange = .init := by
  have hso : so = none := by
    refine Option.eq_none_iff_forall_ne_some.mpr fun t ht => ?_
    have hholds := (h.calls t).sender.mp ht
    rw [holdsSender_of_isIdle (hidle t)] at hholds
    cases hholds
  have hro : ro = none := by
    refine Option.eq_none_iff_forall_ne_some.mpr fun t ht => ?_
    have hholds := (h.calls t).receiver.mp ht
    rw [holdsReceiver_of_isIdle (hidle t)] at hholds
    cases hholds
  refine ⟨by rw [h.sender, hso]; rfl, by rw [h.receiver, hro]; rfl, ?_⟩
  have hcell := h.cell
  have hwaits : ∀ {t call}, s.calls t = call → call.isIdle = true := by
    rintro t _ rfl
    exact hidle t
  cases hex : s.channel.exchange with rw [hex] at hcell
  | waitingForReceiver guard msg =>
    obtain ⟨m, hg, -⟩ := hcell
    cases hwaits hg
  | waitingForSender guard =>
    have hg : s.calls guard = .receiveWaiting := hcell
    cases hwaits hg
  | receiverFinishedFirst => obtain ⟨t, m, hg | hg⟩ := hcell <;> cases hwaits hg
  | senderFinishedFirst msg => obtain ⟨t, hg | hg⟩ := hcell <;> cases hwaits hg

end Correct

theorem inv_newChannel : Inv none none (newChannel μ) :=
  ⟨rfl, rfl, rfl, fun t => ⟨none_iff_false t, none_iff_false t, trivial⟩, trivial, fun _ => rfl,
    fun _ => rfl, rfl⟩

/-- **The rendezvous channel is a correct handshake**, in every state of every run. -/
theorem rendezvous_correct {μ : Type*} (ops : List (Op μ)) :
    Correct (run step (newChannel μ) ops) := by
  obtain ⟨so, ro, h⟩ := run_invariant (I := fun s : System μ => ∃ so ro, Inv so ro s)
    (fun s op ⟨_, _, h⟩ => inv_step h op) ⟨none, none, inv_newChannel⟩ ops
  have hfits := fun t => (h.calls t).fits
  have htaken : ∀ {r msg}, (run step (newChannel μ) ops).calls r = .received (.ok msg) →
      ((run step (newChannel μ) ops).calls r).taken = some msg := fun hr => by rw [hr]; rfl
  refine ⟨h.errors, fun t m e ht => ?_, fun t e ht => ?_, fun t m ht => ?_,
    fun r msg => bound_returns, fun r t m hr => ?_, fun r r' t m m' hr hr' => h.taken_unique (htaken hr) (htaken hr'),
    h.quiescent⟩
  · have := hfits t
    rw [ht] at this
    cases this
  · have := hfits t
    rw [ht] at this
    obtain ⟨msg, hmsg⟩ := this
    cases hmsg
  · obtain ⟨r, hr⟩ := h.exists_bound (t := t) (m := m) (by rw [ht]; rfl)
    exact ⟨r, hr, fun r' hr' => h.bound_unique hr' hr⟩
  · have hgiven := h.given_of_taken (htaken hr)
    exact ⟨message_of_given hgiven, given_returns (hfits t) hgiven⟩

/-- **A message arrives as it was sent.** What a receive returns from a send is the message that
the send had at any earlier time. -/
theorem received_as_sent {μ : Type*} (early late : List (Op μ)) {t r : ℕ} {m m' : μ}
    (hsend : ((run step (newChannel μ) early).calls t).message = some m)
    (hreceived : (run step (newChannel μ) (early ++ late)).calls r = .received (.ok (t, m'))) :
    m' = m := by
  obtain ⟨so, ro, h⟩ := run_invariant (I := fun s : System μ => ∃ so ro, Inv so ro s)
    (fun s op ⟨_, _, h⟩ => inv_step h op) ⟨none, none, inv_newChannel⟩ (early ++ late)
  have hgiven := h.given_of_taken (r := r) (by rw [hreceived]; rfl)
  have hsent := message_run hsend late
  rw [← run_append, message_of_given hgiven] at hsent
  exact Option.some.inj hsent

theorem received_as_sent_seven : ∃ m', (run step (newChannel ℕ) ([.send 0 7] ++
    [.step 0, .step 0, .receive 1, .step 1, .step 1, .step 1])).calls 1 = .received (.ok (0, m')) ∧
      m' = 7 :=
  ⟨7, rfl, received_as_sent (t := 0) (r := 1) [.send 0 7]
    [.step 0, .step 0, .receive 1, .step 1, .step 1, .step 1] rfl rfl⟩

end Maios.Rendezvous
