import Maios.Sync.Rendezvous

/-!
# The handshake of the rendezvous channel

The side of the sender and the side of the receiver each have an owner, or their slot is present.
The owner is the call that took the slot, until the party that finishes first hands its side to the
other party. From who owns the sides it follows in which states of the cell a call can find itself,
so that none of the branches for invalid states is ever reached.
-/

namespace Maios.Rendezvous

open Function

variable {μ : Type*} {c : Channel μ} {msg : Item μ}

/-- A message that was handed over and not yet taken. -/
def ExchangeState.inFlight : ExchangeState μ → List (Item μ)
  | senderFinishedFirst msg => [msg]
  | _ => []

namespace Call

/-- The call owns the side of the sender. -/
def holdsSender (ex : ExchangeState μ) : Call μ → Bool
  | .sendFirst _ | .sendWaiting _ | .sendSecond _ | .sendRestoreReceiver _
  | .sendRestoreSender .. | .receiveSecond | .receiveRestoreSender _ => true
  | .receiveWaiting =>
    match ex with
    | .senderFinishedFirst _ => true
    | _ => false
  | _ => false

/-- The call owns the side of the receiver. -/
def holdsReceiver (ex : ExchangeState μ) : Call μ → Bool
  | .receiveFirst | .receiveWaiting | .receiveSecond | .receiveRestoreSender _
  | .receiveRestoreReceiver _ | .sendSecond _ | .sendRestoreReceiver _ => true
  | .sendWaiting _ =>
    match ex with
    | .receiverFinishedFirst => true
    | _ => false
  | _ => false

/-- The call can be where it is while the cell is in this state, and no error is on its way. -/
def Fits (ex : ExchangeState μ) (t : ℕ) : Call μ → Prop
  | .sendWaiting m => ex = .waitingForReceiver t (t, m) ∨ ex = .receiverFinishedFirst
  | .sendSecond _ => ex = .receiverFinishedFirst
  | .sendRestoreReceiver _ => ex = .init
  | .receiveWaiting => ex = .waitingForSender t ∨ ∃ msg, ex = .senderFinishedFirst msg
  | .receiveSecond => ∃ msg, ex = .senderFinishedFirst msg
  | .receiveRestoreSender _ => ex = .init
  | .sendRestoreSender _ r | .sent _ r => r = .ok ()
  | .receiveRestoreReceiver r | .received r => ∃ msg, r = .ok msg
  | _ => True

/-- The message that the call has handed over. -/
def given (ex : ExchangeState μ) : Call μ → Option μ
  | .wakeReceiver m | .sendSecond m | .sendRestoreReceiver m | .sendRestoreSender m (.ok _)
  | .sent m (.ok _) => some m
  | .sendWaiting m =>
    match ex with
    | .receiverFinishedFirst => some m
    | _ => none
  | _ => none

/-- The message that the call has taken. -/
def taken : Call μ → Option (Item μ)
  | .wakeSender msg | .receiveRestoreSender msg | .receiveRestoreReceiver (.ok msg)
  | .received (.ok msg) => some msg
  | _ => none

/-- The cell can wait for the call. -/
def isAwaited : Call μ → Bool
  | .sendWaiting _ | .sendSecond _ | .receiveWaiting | .receiveSecond => true
  | _ => false

/-- What is said above about the call does not depend on the cell. -/
def isFixed : Call μ → Bool
  | .sendWaiting _ | .sendSecond _ | .sendRestoreReceiver _ | .receiveWaiting | .receiveSecond
  | .receiveRestoreSender _ => false
  | _ => true

end Call

/-- The call `t` owns the sides that it should, where `so` and `ro` are the owners. -/
structure CallOk (ex : ExchangeState μ) (so ro : Option ℕ) (t : ℕ) (call : Call μ) : Prop where
  sender : so = some t ↔ call.holdsSender ex = true
  receiver : ro = some t ↔ call.holdsReceiver ex = true
  fits : call.Fits ex t

/-- Somebody waits for what is in the cell. -/
def CellOk (calls : ℕ → Call μ) : ExchangeState μ → Prop
  | .init => True
  | .waitingForReceiver guard msg => ∃ m, calls guard = .sendWaiting m ∧ msg = (guard, m)
  | .waitingForSender guard => calls guard = .receiveWaiting
  | .receiverFinishedFirst => ∃ t m, calls t = .sendWaiting m ∨ calls t = .sendSecond m
  | .senderFinishedFirst _ => ∃ t, calls t = .receiveWaiting ∨ calls t = .receiveSecond

/-- What holds after every step, where `so` and `ro` are the owners of the two sides. -/
structure Inv (so ro : Option ℕ) (s : System μ) : Prop where
  sender : s.channel.sender = so.isNone
  receiver : s.channel.receiver = ro.isNone
  errors : s.channel.errors = []
  calls : ∀ t, CallOk s.channel.exchange so ro t (s.calls t)
  cell : CellOk s.calls s.channel.exchange
  given : Logged (fun t => (s.calls t).given s.channel.exchange) s.channel.given
  taken : Logged (fun t => (s.calls t).taken) s.channel.taken
  flow : s.channel.given = s.channel.taken.map Prod.snd ++ s.channel.exchange.inFlight

/-- The invariant holds, whoever the owners are. -/
def Owned (s : System μ) : Prop := ∃ so ro, Inv so ro s

/-- How the owner of a side changes when `t` takes a step. -/
inductive Passes (t : ℕ) : Option ℕ → Option ℕ → Prop
  | keep (owner : Option ℕ) : Passes t owner owner
  | take : Passes t none (some t)
  | put : Passes t (some t) none

/-- Nothing changes for the others. -/
theorem Passes.iff {t t' : ℕ} {o o' : Option ℕ} (h : Passes t o o') (hne : t' ≠ t) :
    o' = some t' ↔ o = some t' := by
  cases h with
  | keep => exact .rfl
  | take | put => simp [hne.symm]

section Frame

variable {ex ex' : ExchangeState μ} {so so' ro ro' : Option ℕ} {t t' : ℕ} {call : Call μ}

theorem CallOk.of_fixed (h : CallOk ex so ro t call) (hf : call.isFixed = true)
    (hs : so' = some t ↔ so = some t) (hr : ro' = some t ↔ ro = some t) :
    CallOk ex' so' ro' t call := by
  cases call with
  | sendWaiting | sendSecond | sendRestoreReceiver | receiveWaiting | receiveSecond
  | receiveRestoreSender => cases hf
  | _ => exact ⟨hs.trans h.sender, hr.trans h.receiver, h.fits⟩

/-- Nothing changes for a call if the cell and its ownership stay. -/
theorem CallOk.of_same (h : CallOk ex so ro t call)
    (hs : so' = some t ↔ so = some t) (hr : ro' = some t ↔ ro = some t) :
    CallOk ex so' ro' t call :=
  ⟨hs.trans h.sender, hr.trans h.receiver, h.fits⟩

theorem given_of_fixed (hf : call.isFixed = true) : call.given ex' = call.given ex := by
  cases call with
  | sendWaiting | sendSecond | sendRestoreReceiver | receiveWaiting | receiveSecond
  | receiveRestoreSender => cases hf
  | sendRestoreSender m r | sent m r => cases r <;> rfl
  | _ => rfl

/-- A call without the sender's side does not depend on the cell, unless it waits for a sender. -/
theorem CallOk.fixed_of_not_sender (h : CallOk ex so ro t call) (hne : so ≠ some t) :
    call.isFixed = true ∨ (call = .receiveWaiting ∧ ex = .waitingForSender t) := by
  have hs : call.holdsSender ex ≠ true := fun hs => hne (h.sender.mpr hs)
  cases call with
  | receiveWaiting =>
    rcases h.fits with hex | ⟨msg, rfl⟩
    · exact .inr ⟨rfl, hex⟩
    · exact absurd rfl hs
  | sendWaiting | sendSecond | sendRestoreReceiver | receiveSecond | receiveRestoreSender =>
    exact absurd rfl hs
  | _ => exact .inl rfl

/-- A call without the receiver's side does not depend on the cell, unless it waits for a
receiver. -/
theorem CallOk.fixed_of_not_receiver (h : CallOk ex so ro t call) (hne : ro ≠ some t) :
    call.isFixed = true ∨ ∃ m, call = .sendWaiting m ∧ ex = .waitingForReceiver t (t, m) := by
  have hr : call.holdsReceiver ex ≠ true := fun hr => hne (h.receiver.mpr hr)
  cases call with
  | sendWaiting m =>
    rcases h.fits with hex | rfl
    · exact .inr ⟨m, rfl, hex⟩
    · exact absurd rfl hr
  | sendSecond | sendRestoreReceiver | receiveWaiting | receiveSecond | receiveRestoreSender =>
    exact absurd rfl hr
  | _ => exact .inl rfl

end Frame

section Steps

variable {so ro : Option ℕ} {s : System μ} {t : ℕ}

variable {call call' : Call μ} {ex : ExchangeState μ}

/-- A call that nobody waits for in the cell moves. -/
theorem CellOk.update {calls : ℕ → Call μ} (h : CellOk calls ex) (hcall : calls t = call)
    (hawait : call.isAwaited = false) : CellOk (update calls t call') ex := by
  have hother : ∀ {t' x}, calls t' = x → x.isAwaited = true →
      Function.update calls t call' t' = x := by
    rintro t' x rfl hx
    refine update_of_ne ?_ _ _
    rintro rfl
    rw [hcall, hawait] at hx
    cases hx
  cases ex with
  | init => trivial
  | waitingForReceiver guard msg =>
    obtain ⟨m, hg, hmsg⟩ := h
    exact ⟨m, hother hg rfl, hmsg⟩
  | waitingForSender guard => exact hother h rfl
  | receiverFinishedFirst =>
    obtain ⟨t', m, h | h⟩ := h
    · exact ⟨t', m, .inl (hother h rfl)⟩
    · exact ⟨t', m, .inr (hother h rfl)⟩
  | senderFinishedFirst msg =>
    obtain ⟨t', h | h⟩ := h
    · exact ⟨t', .inl (hother h rfl)⟩
    · exact ⟨t', .inr (hother h rfl)⟩

/-- The call is at `call`, so it owns the sides that it should there. -/
theorem Inv.ok (h : Inv so ro s) (hcall : s.calls t = call) :
    CallOk s.channel.exchange so ro t call :=
  hcall ▸ h.calls t

theorem step_of_call (hcall : s.calls t = call) (hstep : call.step t s.channel = (call', c)) :
    step s (.step t) = ⟨c, update s.calls t call'⟩ := by
  subst hcall
  show System.mk _ _ = _
  rw [hstep]

theorem Inv.stay (h : Inv so ro s) (hcall : s.calls t = call)
    (hstep : call.step t s.channel = (call, s.channel)) : Owned (step s (.step t)) := by
  refine ⟨so, ro, ?_⟩
  rw [step_of_call hcall hstep, ← hcall, update_eq_self]
  exact h

/-- The call moves and the cell stays. Only the ownership of `t` changes. -/
theorem Inv.move (h : Inv so ro s) {so' ro' : Option ℕ} (hcall : s.calls t = call)
    (hc : c = { s.channel with sender := so'.isNone, receiver := ro'.isNone })
    (hme : CallOk s.channel.exchange so' ro' t call') (hs : Passes t so so')
    (hr : Passes t ro ro') (hcell : CellOk (update s.calls t call') s.channel.exchange)
    (hgiven : call'.given s.channel.exchange = call.given s.channel.exchange)
    (htaken : call'.taken = call.taken) : Inv so' ro' ⟨c, update s.calls t call'⟩ := by
  subst hc hcall
  refine ⟨rfl, rfl, h.errors, fun t' => ?_, hcell, h.given.congr (update_same hgiven),
    h.taken.congr (update_same htaken), h.flow⟩
  show CallOk s.channel.exchange so' ro' t' (update s.calls t call' t')
  rcases eq_or_ne t' t with rfl | hne
  · rwa [update_self]
  · rw [update_of_ne hne]
    exact (h.calls t').of_same (hs.iff hne) (hr.iff hne)

/-- A call that nobody waits for takes a step, and the cell stays. -/
theorem Inv.pass (h : Inv so ro s) {so' ro' : Option ℕ} (hcall : s.calls t = call)
    (hawait : call.isAwaited = false) (hstep : call.step t s.channel = (call', c))
    (hs : Passes t so so') (hr : Passes t ro ro')
    (hc : c = { s.channel with sender := so'.isNone, receiver := ro'.isNone })
    (hme : CallOk s.channel.exchange so' ro' t call')
    (hgiven : call'.given s.channel.exchange = call.given s.channel.exchange)
    (htaken : call'.taken = call.taken) : Owned (step s (.step t)) := by
  rw [step_of_call hcall hstep]
  exact ⟨so', ro', h.move hcall hc hme hs hr (h.cell.update hcall hawait) hgiven htaken⟩

/-- While `t` owns the sender's side, only a receiver that waits depends on the cell. -/
theorem Inv.fixed_of_sender (h : Inv (some t) ro s) {t' : ℕ} (hne : t' ≠ t) :
    (s.calls t').isFixed = true ∨
      (s.calls t' = .receiveWaiting ∧ s.channel.exchange = .waitingForSender t') :=
  (h.calls t').fixed_of_not_sender fun he => hne (Option.some.inj he).symm

/-- Each side has one owner. -/
theorem Inv.sender_unique (h : Inv so ro s) (hso : so = some t) {t' : ℕ}
    (hcall : s.calls t = call) (hcall' : s.calls t' = call')
    (hholds : call'.holdsSender s.channel.exchange = true) : call' = call := by
  obtain rfl := Option.some.inj (hso.symm.trans ((h.ok hcall').sender.mpr hholds))
  exact hcall'.symm.trans hcall

theorem Inv.receiver_unique (h : Inv so ro s) (hro : ro = some t) {t' : ℕ}
    (hcall : s.calls t = call) (hcall' : s.calls t' = call')
    (hholds : call'.holdsReceiver s.channel.exchange = true) : call' = call := by
  obtain rfl := Option.some.inj (hro.symm.trans ((h.ok hcall').receiver.mpr hholds))
  exact hcall'.symm.trans hcall

theorem none_iff_false (t : ℕ) : (none : Option ℕ) = some t ↔ false = true := by simp

section

variable (h : Inv so ro s) {taken : List (ℕ × Item μ)}

include h

theorem Inv.sender_eq_true (hs : s.channel.sender = true) : so = none :=
  Option.isNone_iff_eq_none.mp (h.sender.symm.trans hs)

theorem Inv.receiver_eq_true (hr : s.channel.receiver = true) : ro = none :=
  Option.isNone_iff_eq_none.mp (h.receiver.symm.trans hr)

/-- The slot of the sender, which `t` owns, is put back. -/
theorem Inv.replaceSenderSlot (hso : so = some t) :
    s.channel.replaceSenderSlot = { s.channel with sender := true, receiver := ro.isNone } := by
  have hs := h.sender
  subst hso
  rw [Channel.replaceSenderSlot, hs, ← h.receiver]
  rfl

theorem Inv.replaceReceiverSlot (hro : ro = some t) :
    s.channel.replaceReceiverSlot = { s.channel with sender := so.isNone, receiver := true } := by
  have hr := h.receiver
  subst hro
  rw [Channel.replaceReceiverSlot, hr, ← h.sender]
  rfl

/-- The call takes a message. -/
theorem Inv.taken_concat (hcall : s.calls t = call) (hnone : call.taken = none)
    (hsome : call'.taken = some msg) :
    Logged (fun t' => (update s.calls t call' t').taken) (s.channel.taken ++ [(t, msg)]) := by
  refine h.taken.concat (t := t) ?_ ?_ fun t' hne => ?_
  · rw [hcall, hnone]
  · rw [update_self, hsome]
  · rw [update_of_ne hne]

/-- Nothing changes in the channel. -/
theorem Inv.channel_eq :
    s.channel = { s.channel with sender := so.isNone, receiver := ro.isNone } := by
  rw [← h.sender, ← h.receiver]

/-- A step that changes the cell. The slots stay away. -/
theorem Inv.exchange {so' ro' : Option ℕ} {call : Call μ} {given : List (Item μ)}
    (hso : so'.isNone = so.isNone) (hro : ro'.isNone = ro.isNone) (hme : CallOk ex so' ro' t call)
    (hothers : ∀ t', t' ≠ t → CallOk ex so' ro' t' (s.calls t'))
    (hcell : CellOk (update s.calls t call) ex)
    (hgiven : Logged (fun t' => (update s.calls t call t').given ex) given)
    (htaken : Logged (fun t' => (update s.calls t call t').taken) taken)
    (hflow : given = taken.map Prod.snd ++ ex.inFlight) :
    Inv so' ro' ⟨{ s.channel with exchange := ex, given := given, taken := taken },
      update s.calls t call⟩ := by
  refine ⟨h.sender.trans hso.symm, h.receiver.trans hro.symm, h.errors, fun t' => ?_, hcell, hgiven,
    htaken, hflow⟩
  show CallOk ex so' ro' t' (update s.calls t call t')
  rcases eq_or_ne t' t with rfl | hne
  · rwa [update_self]
  · rw [update_of_ne hne]
    exact hothers t' hne

/-- The cell changes, and no other call depends on it. -/
theorem Inv.exchangeAlone (hcall : s.calls t = call)
    (hothers : ∀ t', t' ≠ t → (s.calls t').isFixed = true) (hme : CallOk ex so ro t call')
    (hcell : CellOk (update s.calls t call') ex)
    (hgiven : call'.given ex = call.given s.channel.exchange)
    (htaken : Logged (fun t' => (update s.calls t call' t').taken) taken)
    (hflow : s.channel.given = taken.map Prod.snd ++ ex.inFlight) :
    Inv so ro ⟨{ s.channel with exchange := ex, taken := taken }, update s.calls t call'⟩ := by
  refine h.exchange rfl rfl hme
    (fun t' hne => (h.calls t').of_fixed (hothers t' hne) .rfl .rfl) hcell
    (h.given.congr fun t' => ?_) htaken hflow
  rcases eq_or_ne t' t with rfl | hne
  · rw [update_self, hgiven, hcall]
  · rw [update_of_ne hne, given_of_fixed (hothers t' hne)]

end

/-! ### The steps of a sender -/

section Send

variable (h : Inv so ro s) {m : μ}

include h

theorem inv_takeSender (hcall : s.calls t = .takeSender m) : Owned (step s (.step t)) := by
  by_cases hslot : s.channel.sender = true
  · obtain rfl := h.sender_eq_true hslot
    refine h.pass hcall rfl (if_pos hslot) .take (.keep ro) ?_
      ⟨iff_of_true rfl rfl, (h.ok hcall).receiver, trivial⟩ rfl rfl
    rw [← h.receiver]
    rfl
  · exact h.stay hcall (if_neg hslot)

/-- The sender meets an empty cell, or a waiting receiver, and nothing else: anybody for whom the
cell is in another state would own the sender's side. -/
theorem exchange_of_sendFirst (hcall : s.calls t = .sendFirst m) :
    s.channel.exchange = .init ∨ ∃ r, s.channel.exchange = .waitingForSender r := by
  have hso : so = some t := (h.ok hcall).sender.mpr rfl
  have hcell := h.cell
  cases hex : s.channel.exchange with rw [hex] at hcell
  | init => exact .inl rfl
  | waitingForSender r => exact .inr ⟨r, rfl⟩
  | waitingForReceiver guard msg =>
    obtain ⟨m', hg, -⟩ := hcell
    cases h.sender_unique hso hcall hg rfl
  | receiverFinishedFirst =>
    obtain ⟨t', m', hg | hg⟩ := hcell <;> cases h.sender_unique hso hcall hg rfl
  | senderFinishedFirst msg =>
    obtain ⟨t', hg | hg⟩ := hcell
    · cases h.sender_unique hso hcall hg (by rw [hex]; rfl)
    · cases h.sender_unique hso hcall hg rfl

theorem inv_sendFirst (hcall : s.calls t = .sendFirst m) : Owned (step s (.step t)) := by
  have hok := h.ok hcall
  obtain rfl : so = some t := hok.sender.mpr rfl
  have hfixed := @h.fixed_of_sender
  have hflow := h.flow
  show ∃ so ro, Inv so ro ⟨((s.calls t).step t s.channel).2, _⟩
  rw [hcall, Call.step]
  rcases exchange_of_sendFirst h hcall with hex | ⟨r, hex⟩
  · -- The sender is first, and waits.
    rw [hex] at hfixed hflow ⊢
    have hothers : ∀ t', t' ≠ t → (s.calls t').isFixed = true := fun t' hne =>
      (hfixed hne).resolve_right fun hw => by cases hw.2
    exact ⟨some t, ro, h.exchangeAlone hcall hothers
      ⟨iff_of_true rfl rfl, hok.receiver, .inl rfl⟩ ⟨m, update_self _ _ _, rfl⟩ rfl
      (h.taken.congr (update_same (f := Call.taken) (by rw [hcall]; rfl))) hflow⟩
  · -- A receiver waits. It gets the sender's side.
    have hcell := h.cell
    have hgiven := h.given
    rw [hex] at hfixed hflow hgiven hok hcell ⊢
    have hr : s.calls r = .receiveWaiting := hcell
    have hne : r ≠ t := by
      rintro rfl
      rw [hcall] at hr
      cases hr
    have hro : ro = some r := (h.calls r).receiver.mpr (by rw [hr]; rfl)
    have hothers : ∀ t', t' ≠ t → t' ≠ r → (s.calls t').isFixed = true := fun t' hne hner =>
      (hfixed hne).resolve_right fun hw => hner (ExchangeState.waitingForSender.inj hw.2).symm
    refine ⟨some r, ro, h.exchange rfl rfl ⟨⟨fun he => absurd (Option.some.inj he) hne,
      fun hf => by cases hf⟩, ?_, trivial⟩ ?_ ?_ ?_ ?_ ?_⟩
    · exact hok.receiver
    · intro t' hne'
      rcases eq_or_ne t' r with rfl | hner
      · rw [hr]
        exact ⟨iff_of_true rfl rfl, ⟨fun _ => rfl, fun _ => hro⟩, .inr ⟨_, rfl⟩⟩
      · refine (h.calls t').of_fixed (hothers t' hne' hner) ?_ .rfl
        exact ⟨fun he => absurd (Option.some.inj he).symm hner,
          fun he => absurd (Option.some.inj he).symm hne'⟩
    · exact ⟨r, .inl (by rw [update_of_ne hne, hr])⟩
    · refine hgiven.concat (t := t) ?_ ?_ ?_
      · rw [hcall]
        rfl
      · rw [update_self]
        rfl
      · intro t' hne'
        rw [update_of_ne hne']
        rcases eq_or_ne t' r with rfl | hner
        · rw [hr]
          rfl
        · exact given_of_fixed (hothers t' hne' hner)
    · exact h.taken.congr (update_same (f := Call.taken) (by rw [hcall]; rfl))
    · have hflow : s.channel.given = s.channel.taken.map Prod.snd ++ [] := hflow
      rw [hflow, List.append_nil]
      rfl

theorem inv_wakeReceiver (hcall : s.calls t = .wakeReceiver m) : Owned (step s (.step t)) := by
  have hok := h.ok hcall
  exact h.pass hcall rfl rfl (.keep so) (.keep ro) h.channel_eq ⟨hok.sender, hok.receiver, rfl⟩
    rfl rfl

theorem inv_sendWaiting (hcall : s.calls t = .sendWaiting m) : Owned (step s (.step t)) := by
  have hok := h.ok hcall
  rcases hok.fits with hex | hex
  · -- A wake-up without reason: the sender finds its own guard, and blocks again.
    exact h.stay hcall (by rw [Call.step, hex]; exact if_pos rfl)
  have hstep : (Call.sendWaiting m).step t s.channel = (.sendSecond m, s.channel) := by
    rw [Call.step, hex]
  rw [hex] at hok
  rw [step_of_call hcall hstep]
  refine ⟨so, ro, h.move hcall h.channel_eq ?_ (.keep so) (.keep ro) ?_ ?_ rfl⟩ <;> rw [hex]
  · exact ⟨hok.sender, hok.receiver, rfl⟩
  · exact ⟨t, m, .inr (update_self _ _ _)⟩
  · rfl

theorem inv_sendSecond (hcall : s.calls t = .sendSecond m) : Owned (step s (.step t)) := by
  have hok := h.ok hcall
  have hex : s.channel.exchange = .receiverFinishedFirst := hok.fits
  obtain rfl : so = some t := hok.sender.mpr rfl
  obtain rfl : ro = some t := hok.receiver.mpr rfl
  have hflow := h.flow
  have hothers : ∀ t', t' ≠ t → (s.calls t').isFixed = true := fun t' hne =>
    (h.fixed_of_sender hne).resolve_right fun hw => by rw [hex] at hw; cases hw.2
  show ∃ so ro, Inv so ro ⟨((s.calls t).step t s.channel).2, _⟩
  rw [hcall, Call.step]
  rw [hex] at hflow ⊢
  exact ⟨some t, some t, h.exchangeAlone hcall hothers
    ⟨iff_of_true rfl rfl, iff_of_true rfl rfl, rfl⟩ trivial rfl
    (h.taken.congr (update_same (f := Call.taken) (by rw [hcall]; rfl))) hflow⟩

theorem inv_sendRestoreReceiver (hcall : s.calls t = .sendRestoreReceiver m) :
    Owned (step s (.step t)) := by
  have hok := h.ok hcall
  obtain rfl : ro = some t := hok.receiver.mpr rfl
  exact h.pass hcall rfl rfl (.keep so) .put (h.replaceReceiverSlot rfl)
    ⟨hok.sender, none_iff_false t, rfl⟩ rfl rfl

theorem inv_sendRestoreSender {r : Except String Unit}
    (hcall : s.calls t = .sendRestoreSender m r) : Owned (step s (.step t)) := by
  have hok := h.ok hcall
  obtain rfl : so = some t := hok.sender.mpr rfl
  obtain rfl : r = .ok () := hok.fits
  exact h.pass hcall rfl rfl .put (.keep ro) (h.replaceSenderSlot rfl)
    ⟨none_iff_false t, hok.receiver, rfl⟩ rfl rfl

end Send

/-! ### The steps of a receiver -/

section Receive

variable (h : Inv so ro s)

include h

theorem inv_takeReceiver (hcall : s.calls t = .takeReceiver) : Owned (step s (.step t)) := by
  by_cases hslot : s.channel.receiver = true
  · obtain rfl := h.receiver_eq_true hslot
    refine h.pass hcall rfl (if_pos hslot) (.keep so) .take ?_
      ⟨(h.ok hcall).sender, iff_of_true rfl rfl, trivial⟩ rfl rfl
    rw [← h.sender]
    rfl
  · exact h.stay hcall (if_neg hslot)

/-- The receiver meets an empty cell, or a waiting sender, and nothing else. -/
theorem exchange_of_receiveFirst (hcall : s.calls t = .receiveFirst) :
    s.channel.exchange = .init ∨ ∃ t' m, s.channel.exchange = .waitingForReceiver t' (t', m) ∧
      s.calls t' = .sendWaiting m := by
  have hro : ro = some t := (h.ok hcall).receiver.mpr rfl
  have hcell := h.cell
  cases hex : s.channel.exchange with rw [hex] at hcell
  | init => exact .inl rfl
  | waitingForReceiver guard msg =>
    obtain ⟨m, hg, rfl⟩ := hcell
    exact .inr ⟨guard, m, rfl, hg⟩
  | waitingForSender r =>
    cases h.receiver_unique hro hcall (show s.calls r = .receiveWaiting from hcell) rfl
  | receiverFinishedFirst =>
    obtain ⟨t', m', hg | hg⟩ := hcell
    · cases h.receiver_unique hro hcall hg (by rw [hex]; rfl)
    · cases h.receiver_unique hro hcall hg rfl
  | senderFinishedFirst msg =>
    obtain ⟨t', hg | hg⟩ := hcell <;> cases h.receiver_unique hro hcall hg rfl

theorem inv_receiveFirst (hcall : s.calls t = .receiveFirst) : Owned (step s (.step t)) := by
  have hok := h.ok hcall
  obtain rfl : ro = some t := hok.receiver.mpr rfl
  have hfixed : ∀ t', t' ≠ t → (s.calls t').isFixed = true ∨
      ∃ m, s.calls t' = .sendWaiting m ∧ s.channel.exchange = .waitingForReceiver t' (t', m) :=
    fun t' hne => (h.calls t').fixed_of_not_receiver fun he => hne (Option.some.inj he).symm
  have hflow := h.flow
  show ∃ so ro, Inv so ro ⟨((s.calls t).step t s.channel).2, _⟩
  rw [hcall, Call.step]
  rcases exchange_of_receiveFirst h hcall with hex | ⟨t₁, m, hex, ht₁⟩
  · -- The receiver is first, and waits.
    rw [hex] at hfixed hflow ⊢
    have hothers : ∀ t', t' ≠ t → (s.calls t').isFixed = true := fun t' hne =>
      (hfixed t' hne).resolve_right fun ⟨_, _, hw⟩ => by cases hw
    exact ⟨so, some t, h.exchangeAlone hcall hothers
      ⟨hok.sender, iff_of_true rfl rfl, .inl rfl⟩ (update_self _ _ _) rfl
      (h.taken.congr (update_same (f := Call.taken) (by rw [hcall]; rfl))) hflow⟩
  · -- A sender waits. It gets the receiver's side.
    have hgiven := h.given
    rw [hex] at hfixed hflow hgiven hok ⊢
    have hne : t₁ ≠ t := by
      rintro rfl
      rw [hcall] at ht₁
      cases ht₁
    have hso : so = some t₁ := (h.calls t₁).sender.mpr (by rw [ht₁]; rfl)
    have hothers : ∀ t', t' ≠ t → t' ≠ t₁ → (s.calls t').isFixed = true := fun t' hne hner =>
      (hfixed t' hne).resolve_right fun ⟨_, _, hw⟩ =>
        hner (ExchangeState.waitingForReceiver.inj hw).1.symm
    refine ⟨so, some t₁, h.exchange rfl rfl ⟨?_, ⟨fun he => absurd (Option.some.inj he) hne,
      fun hf => by cases hf⟩, trivial⟩ ?_ ?_ ?_ ?_ ?_⟩
    · exact hok.sender
    · intro t' hne'
      rcases eq_or_ne t' t₁ with rfl | hner
      · rw [ht₁]
        exact ⟨⟨fun _ => rfl, fun _ => hso⟩, iff_of_true rfl rfl, .inr rfl⟩
      · refine (h.calls t').of_fixed (hothers t' hne' hner) .rfl ?_
        exact ⟨fun he => absurd (Option.some.inj he).symm hner,
          fun he => absurd (Option.some.inj he).symm hne'⟩
    · exact ⟨t₁, m, .inl (by rw [update_of_ne hne, ht₁])⟩
    · refine hgiven.concat (t := t₁) ?_ ?_ ?_
      · rw [ht₁]
        rfl
      · rw [update_of_ne hne, ht₁]
        rfl
      · intro t' hner
        rcases eq_or_ne t' t with rfl | hne'
        · rw [update_self, hcall]
          rfl
        · rw [update_of_ne hne']
          exact given_of_fixed (hothers t' hne' hner)
    · exact h.taken_concat hcall rfl rfl
    · have hflow : s.channel.given = s.channel.taken.map Prod.snd ++ [] := hflow
      rw [hflow, List.append_nil, List.map_append]
      exact (List.append_nil _).symm

theorem inv_wakeSender (hcall : s.calls t = .wakeSender msg) : Owned (step s (.step t)) := by
  have hok := h.ok hcall
  exact h.pass hcall rfl rfl (.keep so) (.keep ro) h.channel_eq
    ⟨hok.sender, hok.receiver, msg, rfl⟩ rfl rfl

theorem inv_receiveWaiting (hcall : s.calls t = .receiveWaiting) : Owned (step s (.step t)) := by
  have hok := h.ok hcall
  rcases hok.fits with hex | ⟨msg, hex⟩
  · exact h.stay hcall (by rw [Call.step, hex]; exact if_pos rfl)
  have hstep : Call.receiveWaiting.step t s.channel = (.receiveSecond, s.channel) := by
    rw [Call.step, hex]
  rw [hex] at hok
  rw [step_of_call hcall hstep]
  refine ⟨so, ro, h.move hcall h.channel_eq ?_ (.keep so) (.keep ro) ?_ rfl rfl⟩ <;> rw [hex]
  · exact ⟨hok.sender, hok.receiver, msg, rfl⟩
  · exact ⟨t, .inr (update_self _ _ _)⟩

theorem inv_receiveSecond (hcall : s.calls t = .receiveSecond) : Owned (step s (.step t)) := by
  have hok := h.ok hcall
  obtain ⟨msg, hex⟩ := hok.fits
  obtain rfl : so = some t := hok.sender.mpr rfl
  obtain rfl : ro = some t := hok.receiver.mpr rfl
  have hflow := h.flow
  have hothers : ∀ t', t' ≠ t → (s.calls t').isFixed = true := fun t' hne =>
    (h.fixed_of_sender hne).resolve_right fun hw => by rw [hex] at hw; cases hw.2
  show ∃ so ro, Inv so ro ⟨((s.calls t).step t s.channel).2, _⟩
  rw [hcall, Call.step]
  rw [hex] at hflow ⊢
  refine ⟨some t, some t, h.exchangeAlone hcall hothers
    ⟨iff_of_true rfl rfl, iff_of_true rfl rfl, rfl⟩ trivial rfl
    (h.taken_concat hcall rfl rfl) ?_⟩
  rw [hflow, List.map_append]
  exact (List.append_nil _).symm

theorem inv_receiveRestoreSender (hcall : s.calls t = .receiveRestoreSender msg) :
    Owned (step s (.step t)) := by
  have hok := h.ok hcall
  obtain rfl : so = some t := hok.sender.mpr rfl
  exact h.pass hcall rfl rfl .put (.keep ro) (h.replaceSenderSlot rfl)
    ⟨none_iff_false t, hok.receiver, msg, rfl⟩ rfl rfl

theorem inv_receiveRestoreReceiver {r : Except String (Item μ)}
    (hcall : s.calls t = .receiveRestoreReceiver r) : Owned (step s (.step t)) := by
  have hok := h.ok hcall
  obtain rfl : ro = some t := hok.receiver.mpr rfl
  obtain ⟨msg, rfl⟩ := hok.fits
  exact h.pass hcall rfl rfl (.keep so) .put (h.replaceReceiverSlot rfl)
    ⟨hok.sender, none_iff_false t, msg, rfl⟩ rfl rfl

end Receive

/-! ### Runs -/

theorem inv_begin (h : Inv so ro s) (hfresh : call = .takeReceiver ∨ ∃ m, call = .takeSender m) :
    Inv so ro (s.begin t call) := by
  rw [System.begin]
  cases ht : s.calls t with
  | unused =>
    have hok := h.ok ht
    have hcell : CellOk (update s.calls t call) s.channel.exchange :=
      h.cell.update ht rfl
    rcases hfresh with rfl | ⟨m, rfl⟩ <;>
      exact h.move ht h.channel_eq ⟨hok.sender, hok.receiver, trivial⟩ (.keep so) (.keep ro) hcell
        rfl rfl
  | _ => exact h

/-- **Every step keeps the invariant.** -/
theorem inv_step (h : Inv so ro s) (op : Op μ) : Owned (step s op) := by
  cases op with
  | send t m => exact ⟨so, ro, inv_begin h (.inr ⟨m, rfl⟩)⟩
  | receive t => exact ⟨so, ro, inv_begin h (.inl rfl)⟩
  | step t => ?_
  cases hcall : s.calls t with
  | unused => exact h.stay hcall rfl
  | takeSender m => exact inv_takeSender h hcall
  | sendFirst m => exact inv_sendFirst h hcall
  | wakeReceiver m => exact inv_wakeReceiver h hcall
  | sendWaiting m => exact inv_sendWaiting h hcall
  | sendSecond m => exact inv_sendSecond h hcall
  | sendRestoreReceiver m => exact inv_sendRestoreReceiver h hcall
  | sendRestoreSender m r => exact inv_sendRestoreSender h hcall
  | sent m r => exact h.stay hcall rfl
  | takeReceiver => exact inv_takeReceiver h hcall
  | receiveFirst => exact inv_receiveFirst h hcall
  | wakeSender msg => exact inv_wakeSender h hcall
  | receiveWaiting => exact inv_receiveWaiting h hcall
  | receiveSecond => exact inv_receiveSecond h hcall
  | receiveRestoreSender msg => exact inv_receiveRestoreSender h hcall
  | receiveRestoreReceiver r => exact inv_receiveRestoreReceiver h hcall
  | received r => exact h.stay hcall rfl

end Steps

end Maios.Rendezvous
